import Tepleton.Auth.Outcome

/-!
# Where fees go

The fee of a transaction is a list of coins that nobody has checked.  It is subtracted from the first
signer's coins, where the result must not be negative, and added to the collected fees, where nothing
is asked of the result.

As totals per denomination the two always match.  `fees_flow_iff` says for which fees everything else
is as it should be too: sorted ones without negative amounts, in which a zero amount stands only for
what both sides hold.  A negative amount is paid to the signer, and an amount out of order breaks one
of the two lists.
-/

namespace Tepleton.Coins

open Lib

/-- Sorted and without zero amounts. -/
structure Tidy (coins : Coins) : Prop where
  sorted : Sorted coins
  nonzero : Nonzero coins

variable {coins : Coins}

theorem denomTotal_of_isZero (h : isZero coins = true) (denom : String) :
    denomTotal denom coins = 0 := by
  refine List.sum_eq_zero fun amount hamount => ?_
  obtain ⟨coin, hcoin, rfl⟩ := List.mem_map.mp hamount
  rw [isZero_iff.mp h coin hcoin, ite_self]

theorem exists_positive {coin : Coin} (hcoin : coin ∈ coins) (hneg : coin.amount < 0)
    (htotal : 0 ≤ denomTotal coin.denom coins) :
    ∃ other ∈ coins, other.denom = coin.denom ∧ 0 < other.amount := by
  by_contra hnone
  push Not at hnone
  refine absurd htotal (not_le.mpr ?_)
  calc denomTotal coin.denom coins
      < (coins.map fun _ => (0 : ℤ)).sum := by
        refine List.sum_lt_sum _ _ (fun other hother => ?_) ⟨coin, hcoin, ?_⟩
        · split_ifs with hdenom
          · exact hnone other hother hdenom
          · exact le_rfl
        · rwa [if_pos rfl]
    _ = 0 := by simp

theorem pair_sublist_or {coin other : Coin} (hcoin : coin ∈ coins) (hother : other ∈ coins)
    (hne : coin ≠ other) : [coin, other].Sublist coins ∨ [other, coin].Sublist coins := by
  induction coins with
  | nil => exact absurd hcoin List.not_mem_nil
  | cons first rest ih =>
    rcases List.mem_cons.mp hcoin with rfl | hmem
    · have hrest : other ∈ rest := (List.mem_cons.mp hother).resolve_left (Ne.symm hne)
      exact .inl ((List.singleton_sublist.mpr hrest).cons_cons _)
    · rcases List.mem_cons.mp hother with rfl | hmem'
      · exact .inr ((List.singleton_sublist.mpr hmem).cons_cons _)
      · exact (ih hmem hmem').imp (List.Sublist.cons _) (List.Sublist.cons _)

section Fee

variable {payer collected fee payer' collected' : Coins}

/-- If the collected fees stay sorted and nothing flows back in total, then the fee is sorted. -/
theorem fee_sorted (hpayer : Sorted payer) (hcollected : Tidy collected)
    (hnonneg : ∀ coin ∈ collected, 0 ≤ coin.amount) (hpaid : payer.minus fee = .ok payer')
    (hplus : collected.plus fee = .ok collected') (hrest : isNotNegative payer' = true)
    (hcollected' : Sorted collected') (htotal : ∀ denom, 0 ≤ denomTotal denom fee) : Sorted fee := by
  rw [Sorted, List.pairwise_iff_forall_sublist]
  intro early late hpair
  by_contra horder
  rw [not_lt] at horder
  -- the earlier coin cancels on the side of the collected fees, so it is negative there
  have hcancel := cancels_of_out_of_order hplus hcollected.sorted hcollected' hpair horder
  have hearly : early.amount < 0 := by
    have hle : 0 ≤ -early.amount := hnonneg _ hcancel
    have hne : -early.amount ≠ 0 := hcollected.nonzero _ hcancel
    omega
  have hmem : early ∈ fee := hpair.subset List.mem_cons_self
  obtain ⟨other, hother, hdenom, hpositive⟩ := exists_positive hmem hearly (htotal _)
  have hne : early ≠ other := by
    rintro rfl
    omega
  rcases pair_sublist_or hmem hother hne with hsub | hsub
  · -- the payer is left with what the positive amount takes away
    have hneg : [(⟨early.denom, -early.amount⟩ : Coin), ⟨other.denom, -other.amount⟩].Sublist
        (negative fee) := hsub.map fun coin : Coin => Coin.mk coin.denom (-coin.amount)
    have hleft := (plus_out_of_order hpaid hpayer hneg hdenom.le).1
    have hle : 0 ≤ -other.amount := isNotNegative_iff.mp hrest _ hleft
    omega
  · have hback := cancels_of_out_of_order hplus hcollected.sorted hcollected' hsub hdenom.ge
    have hle : 0 ≤ -other.amount := hnonneg _ hback
    omega

/-- A fee that both sides can take: sorted, without negative amounts, and with zero amounts only of
what both hold. -/
structure Fits (payer collected fee : Coins) : Prop where
  sorted : Sorted fee
  nonneg : ∀ coin ∈ fee, 0 ≤ coin.amount
  held : ∀ coin ∈ fee, coin.amount = 0 → Held coin.denom payer ∧ Held coin.denom collected

instance : Decidable (Fits payer collected fee) :=
  decidable_of_iff (Sorted fee ∧ (∀ coin ∈ fee, 0 ≤ coin.amount) ∧
      ∀ coin ∈ fee, coin.amount = 0 → Held coin.denom payer ∧ Held coin.denom collected)
    ⟨fun h => ⟨h.1, h.2.1, h.2.2⟩, fun h => ⟨h.sorted, h.nonneg, h.held⟩⟩

theorem Fits.tidy (h : Fits payer collected fee) (hpayer : Tidy payer) (hcollected : Tidy collected)
    (hpaid : payer.minus fee = .ok payer') (hplus : collected.plus fee = .ok collected') :
    Tidy payer' ∧ Tidy collected' := by
  have hneg : ∀ coin ∈ negative fee, coin.amount = 0 → Held coin.denom payer := by
    intro coin hcoin hzero
    refine (h.held ⟨coin.denom, -coin.amount⟩ (mem_negative.mp hcoin) ?_).1
    rw [hzero, neg_zero]
  constructor
  · exact ⟨sorted_plus hpaid hpayer.sorted h.sorted.negative,
      nonzero_plus_of_held hpaid hpayer.sorted h.sorted.negative hpayer.nonzero hneg⟩
  · exact ⟨sorted_plus hplus hcollected.sorted h.sorted,
      nonzero_plus_of_held hplus hcollected.sorted h.sorted hcollected.nonzero
        fun coin hcoin hzero => (h.held coin hcoin hzero).2⟩

theorem fits_of_tidy (hpayer : Tidy payer) (hcollected : Tidy collected)
    (hnonneg : ∀ coin ∈ collected, 0 ≤ coin.amount) (hpaid : payer.minus fee = .ok payer')
    (hplus : collected.plus fee = .ok collected') (hrest : isNotNegative payer' = true)
    (hpayer' : Tidy payer') (hcollected' : Tidy collected')
    (htotal : ∀ denom, 0 ≤ denomTotal denom fee) : Fits payer collected fee := by
  have hsorted := fee_sorted hpayer.sorted hcollected hnonneg hpaid hplus hrest
    hcollected'.sorted htotal
  refine ⟨hsorted, ?_, ?_⟩
  · intro coin hcoin
    rw [← hsorted.denomTotal_eq hcoin]
    exact htotal _
  · intro coin hcoin hzero
    have hneg : (⟨coin.denom, -coin.amount⟩ : Coin) ∈ negative fee :=
      mem_negative.mpr (by simpa using hcoin)
    exact ⟨held_of_nonzero_plus hpaid hpayer'.nonzero ⟨coin.denom, -coin.amount⟩ hneg
        (neg_eq_zero.mpr hzero),
      held_of_nonzero_plus hplus hcollected'.nonzero coin hcoin hzero⟩

end Fee

end Tepleton.Coins

namespace Tepleton.Auth

open Lib Baseapp Bank Coins

variable {Msg : Type} {env : Env Msg} {chainID : String} {tx : StdTx Msg} {s s' : AnteState}

/-! ## The coins after a call -/

theorem getCoins_setAccount_self (am : AccountStore) (addr : Address) (acc : Account) :
    getCoins (am.setAccount addr acc) addr = acc.coins := by
  rw [getCoins, AccountStore.getAccount_setAccount_self]

variable {addr : Address}

theorem getCoins_setAccount_of_ne (am : AccountStore) {other : Address} (acc : Account)
    (hne : addr ≠ other) : getCoins (am.setAccount addr acc) other = getCoins am other := by
  rw [getCoins, AccountStore.getAccount_setAccount_of_ne _ _ hne, getCoins]

theorem coins_of_acceptSig {sig : StdSignature} {acc : Account}
    (h : acceptSig env chainID tx addr sig (s.accounts.getAccount addr) = .ok acc) :
    acc.coins = getCoins s.accounts addr := by
  obtain ⟨old, pubKey, hold, hsigned⟩ := acceptSig_eq_ok h
  rw [getCoins, hold, hsigned.saved]

theorem Saves.getCoins_eq {entries : List (Address × StdSignature)}
    (h : Saves env chainID tx entries s s') (other : Address) :
    getCoins s'.accounts other = getCoins s.accounts other := by
  induction h with
  | nil s => rfl
  | @cons addr sig rest s s' acc haccept _ ih =>
    rw [ih]
    by_cases heq : addr = other
    · subst heq
      rw [getCoins_setAccount_self, coins_of_acceptSig haccept]
    · exact getCoins_setAccount_of_ne _ _ heq

/-- The first signer. -/
def StdTx.payer (env : Env Msg) (tx : StdTx Msg) : Option Address := (tx.getSigners env).head?

theorem payer_of_entries {sig : StdSignature} {rest : List (Address × StdSignature)}
    (hentries : tx.entries env = (addr, sig) :: rest) : tx.payer env = some addr := by
  rw [StdTx.payer]
  rw [StdTx.entries] at hentries
  cases hsigners : tx.getSigners env with
  | nil => simp [hsigners] at hentries
  | cons first others =>
    rw [hsigners] at hentries
    cases hsigs : tx.signatures with
    | nil => simp [hsigs] at hentries
    | cons sig' sigs =>
      rw [hsigs, List.zip_cons_cons, List.cons.injEq, Prod.mk.injEq] at hentries
      rw [List.head?_cons, hentries.1.1]

theorem passed_coins {value : List Account × GasMeter} {payer : Address}
    (h : runAnteHandler env chainID tx s = (.ok value, s')) (hpayer : tx.payer env = some payer) :
    Charged tx.fee (getCoins s.accounts payer) (getCoins s'.accounts payer) ∧
      Collected tx.fee s.collectedFees s'.collectedFees ∧
      ∀ other, other ≠ payer → getCoins s'.accounts other = getCoins s.accounts other := by
  cases anteHandler_end h with
  | saved hwf hentries hpays haccounts hcollected hsaves _ =>
    rw [payer_of_entries hentries] at hpayer
    cases hpayer
    obtain ⟨acc, haccept, hcharge⟩ := hpays
    obtain ⟨coins, rfl, hcharged⟩ := chargeFee_eq_ok hcharge
    rw [coins_of_acceptSig haccept] at hcharged
    rw [hsaves.collectedFees]
    refine ⟨?_, hcollected, fun other hother => ?_⟩
    · rw [hsaves.getCoins_eq, haccounts, getCoins_setAccount_self]
      exact hcharged
    · rw [hsaves.getCoins_eq, haccounts, getCoins_setAccount_of_ne _ _ hother.symm]

/-! ## Fees that flow one way -/

/-- The collected fees, none if nothing has been stored. -/
def AnteState.collected (s : AnteState) : Coins := s.collectedFees.getD []

/-- All coin lists are sorted and without zero amounts. -/
structure AnteState.Tidy (s : AnteState) : Prop where
  accounts (addr : Address) : (getCoins s.accounts addr).Tidy
  collected : s.collected.Tidy

/-- A fee goes from one account to the collected fees, and nothing else happens to coins. -/
structure FeesFlow (fee : Coins) (payer : Address) (s s' : AnteState) : Prop where
  paid (denom : String) : denomTotal denom (getCoins s'.accounts payer) =
    denomTotal denom (getCoins s.accounts payer) - denomTotal denom fee
  collected (denom : String) : denomTotal denom s'.collected =
    denomTotal denom s.collected + denomTotal denom fee
  others (other : Address) : other ≠ payer →
    getCoins s'.accounts other = getCoins s.accounts other
  noneIncreases (addr : Address) (denom : String) :
    denomTotal denom (getCoins s'.accounts addr) ≤ denomTotal denom (getCoins s.accounts addr)
  tidy : s'.Tidy

/-- In a state with tidy coin lists and no negative amount among the collected fees, the fee of a
passing transaction flows one way exactly when it is zero or fits. -/
theorem fees_flow_iff {value : List Account × GasMeter} {payer : Address} (htidy : s.Tidy)
    (hnonneg : s.collected.isNotNegative = true) (hpayer : tx.payer env = some payer)
    (h : runAnteHandler env chainID tx s = (.ok value, s')) :
    FeesFlow tx.fee.amount payer s s' ↔
      tx.fee.amount.isZero = true ∨
        Fits (getCoins s.accounts payer) s.collected tx.fee.amount := by
  obtain ⟨hcharged, hcollected, hothers⟩ := passed_coins h hpayer
  rw [Charged] at hcharged
  rw [Collected] at hcollected
  split_ifs at hcharged hcollected with hzero
  · have hsame : ∀ addr, getCoins s'.accounts addr = getCoins s.accounts addr := by
      intro addr
      by_cases heq : addr = payer
      · rw [heq, hcharged]
      · exact hothers addr heq
    have hfees : s'.collected = s.collected := congrArg (Option.getD · []) hcollected
    refine iff_of_true ?_ (.inl hzero)
    constructor
    case paid => intro denom; rw [hcharged, denomTotal_of_isZero hzero, sub_zero]
    case collected => intro denom; rw [hfees, denomTotal_of_isZero hzero, add_zero]
    case others => exact hothers
    case noneIncreases => intro addr denom; rw [hsame]
    case tidy => exact ⟨fun addr => hsame addr ▸ htidy.accounts addr, hfees ▸ htidy.collected⟩
  · obtain ⟨hpaid, hrest⟩ := hcharged
    obtain ⟨coins, hplus, hfees⟩ := hcollected
    have hcoins : s'.collected = coins := congrArg (Option.getD · []) hfees
    subst hcoins
    have hdenom : ∀ denom, denomTotal denom (getCoins s'.accounts payer) =
        denomTotal denom (getCoins s.accounts payer) - denomTotal denom tx.fee.amount := by
      intro denom
      rw [denomTotal_plus hpaid, denomTotal_negative, sub_eq_add_neg]
    constructor
    · intro hflow
      refine .inr (fits_of_tidy (htidy.accounts payer) htidy.collected
        (isNotNegative_iff.mp hnonneg) hpaid hplus hrest (hflow.tidy.accounts payer)
        hflow.tidy.collected fun denom => ?_)
      have hle := hflow.noneIncreases payer denom
      rw [hdenom] at hle
      omega
    · rintro (hzero' | hfits)
      · exact absurd hzero' hzero
      · obtain ⟨hpayerTidy, hfeesTidy⟩ :=
          hfits.tidy (htidy.accounts payer) htidy.collected hpaid hplus
        constructor
        case paid => exact hdenom
        case collected => exact fun denom => denomTotal_plus hplus
        case others => exact hothers
        case noneIncreases =>
          intro addr denom
          by_cases heq : addr = payer
          · rw [heq, hdenom]
            have hfee := denomTotal_nonneg hfits.nonneg denom
            omega
          · rw [hothers addr heq]
        case tidy =>
          refine ⟨fun addr => ?_, hfeesTidy⟩
          by_cases heq : addr = payer
          · exact heq ▸ hpayerTidy
          · exact hothers addr heq ▸ htidy.accounts addr

theorem twoFunded_tidy : twoFunded.Tidy := by
  have hten : Coins.Tidy [⟨"atom", 10⟩] := ⟨List.pairwise_singleton _ _, by simp [Nonzero]⟩
  have hnil : Coins.Tidy [] := ⟨List.Pairwise.nil, by simp [Nonzero]⟩
  refine ⟨fun addr => ?_, hnil⟩
  have haccounts : twoFunded.accounts.accounts =
      ((∅ : KVStore Address Account).insert [1] ⟨[⟨"atom", 10⟩], none, 0, 0⟩).insert [2]
        ⟨[⟨"atom", 10⟩], none, 1, 0⟩ := rfl
  rw [getCoins, AccountStore.getAccount, haccounts, KVStore.getElem?_insert,
    KVStore.getElem?_insert, KVStore.getElem?_empty]
  split_ifs
  · exact hten
  · exact hten
  · exact hnil

/-- Two messages for a fee of three atoms. -/
theorem fees_flow_iff_twoMessages :
    let tx := twoMessages.signedBy "chain" [([1], 0, 0), ([2], 1, 0)]
    ∃ value s', runAnteHandler plainEnv "chain" tx twoFunded = (.ok value, s') ∧
      FeesFlow [⟨"atom", 3⟩] [1] twoFunded s' := by
  intro tx
  have hpasses : passesWith (fun _ => true) (runAnteHandler plainEnv "chain" tx twoFunded) = true := by
    decide +kernel
  obtain ⟨value, s', h, -⟩ := exists_of_passesWith hpasses
  exact ⟨value, s', h, (fees_flow_iff twoFunded_tidy (by decide) (by decide +kernel) h).mpr
    (.inr (by decide +kernel))⟩

/-- A fee of minus five photons: the signer gets them, and the collected fees are negative. -/
theorem negative_fee_pays_signer :
    let tx := StdTx.signedBy ⟨[[[1]]], ⟨[⟨"photon", -5⟩], 10000⟩, [], []⟩ "chain" [([1], 0, 0)]
    ∃ value s', runAnteHandler plainEnv "chain" tx twoFunded = (.ok value, s') ∧
      getCoins s'.accounts [1] = [⟨"atom", 10⟩, ⟨"photon", 5⟩] ∧
      s'.collected = [⟨"photon", -5⟩] ∧ ¬ FeesFlow [⟨"photon", -5⟩] [1] twoFunded s' := by
  intro tx
  have hpasses : passesWith
      (fun s' => decide (getCoins s'.accounts [1] = [⟨"atom", 10⟩, ⟨"photon", 5⟩] ∧
        s'.collected = [⟨"photon", -5⟩] ∧
        ¬ denomTotal "photon" (getCoins s'.accounts [1]) ≤
          denomTotal "photon" (getCoins twoFunded.accounts [1])))
      (runAnteHandler plainEnv "chain" tx twoFunded) = true := by decide +kernel
  obtain ⟨value, s', h, htest⟩ := exists_of_passesWith hpasses
  obtain ⟨hcoins, hcollected, hincreases⟩ := of_decide_eq_true htest
  exact ⟨value, s', h, hcoins, hcollected, fun hflow =>
    hincreases (hflow.noneIncreases [1] "photon")⟩

end Tepleton.Auth
