import Tepleton.Auth.Account

/-!
# `x/bank/keeper.go`

Reading and writing the coins of an account.  Gas is left out: running out of it only makes a call
fail, and a failed call changes nothing.
-/

namespace Tepleton.Bank

open Lib Auth

def getCoins (am : AccountStore) (addr : Address) : Coins :=
  match am.getAccount addr with
  | none => []
  | some acc => acc.coins

def setCoins (am : AccountStore) (addr : Address) (amt : Coins) : AccountStore :=
  match am.getAccount addr with
  | none =>
    let (am, acc) := am.newAccountWithAddress
    am.setAccount addr { acc with coins := amt }
  | some acc => am.setAccount addr { acc with coins := amt }

/-- `Coins.String`, the amounts and denominations separated by commas. -/
def coinsString (coins : Coins) : String :=
  String.intercalate "," (coins.map fun coin => toString coin.amount ++ coin.denom)

def errInsufficientCoins (oldCoins amt : Coins) : SdkError :=
  ⟨10, coinsString oldCoins ++ " < " ++ coinsString amt⟩

def subtractCoins (am : AccountStore) (addr : Address) (amt : Coins) : Outcome AccountStore := do
  let oldCoins := getCoins am addr
  let newCoins ← oldCoins.minus amt
  if newCoins.isNotNegative then return setCoins am addr newCoins
  else throw (.error (errInsufficientCoins oldCoins amt))

def addCoins (am : AccountStore) (addr : Address) (amt : Coins) : Outcome AccountStore := do
  let oldCoins := getCoins am addr
  let newCoins ← oldCoins.plus amt
  if newCoins.isNotNegative then return setCoins am addr newCoins
  else throw (.error (errInsufficientCoins oldCoins amt))

variable {addr : Address} {am am' : AccountStore} {amt : Coins}

@[simp] theorem getCoins_setCoins_self (am : AccountStore) (addr : Address) (amt : Coins) :
    getCoins (setCoins am addr amt) addr = amt := by
  unfold setCoins
  split <;> simp [getCoins, AccountStore.getAccount, AccountStore.setAccount,
    AccountStore.newAccountWithAddress]

theorem getCoins_setCoins_of_ne (am : AccountStore) {other : Address} (amt : Coins)
    (hne : addr ≠ other) : getCoins (setCoins am addr amt) other = getCoins am other := by
  unfold setCoins
  split <;> simp [getCoins, AccountStore.getAccount, AccountStore.setAccount,
    AccountStore.newAccountWithAddress, KVStore.getElem?_insert_of_ne _ _ hne]

theorem addCoins_eq_ok (h : addCoins am addr amt = .ok am') :
    ∃ newCoins, (getCoins am addr).plus amt = .ok newCoins ∧ am' = setCoins am addr newCoins := by
  simp only [addCoins, bind_eq_ok] at h
  obtain ⟨newCoins, hplus, h⟩ := h
  split at h
  · rw [pure_eq_ok] at h
    exact ⟨newCoins, hplus, h.symm⟩
  · cases h

theorem denomTotal_addCoins (h : addCoins am addr amt = .ok am') (denom : String) :
    (getCoins am' addr).denomTotal denom =
      (getCoins am addr).denomTotal denom + amt.denomTotal denom := by
  obtain ⟨newCoins, hplus, rfl⟩ := addCoins_eq_ok h
  rw [getCoins_setCoins_self, Coins.denomTotal_plus hplus]

theorem subtractCoins_eq_ok (h : subtractCoins am addr amt = .ok am') :
    ∃ newCoins, (getCoins am addr).minus amt = .ok newCoins ∧ am' = setCoins am addr newCoins := by
  simp only [subtractCoins, bind_eq_ok] at h
  obtain ⟨newCoins, hminus, h⟩ := h
  split at h
  · rw [pure_eq_ok] at h
    exact ⟨newCoins, hminus, h.symm⟩
  · cases h

theorem denomTotal_subtractCoins (h : subtractCoins am addr amt = .ok am') (other : Address)
    (denom : String) :
    (getCoins am' other).denomTotal denom = (getCoins am other).denomTotal denom -
      if other = addr then amt.denomTotal denom else 0 := by
  obtain ⟨newCoins, hminus, rfl⟩ := subtractCoins_eq_ok h
  split_ifs with hother
  · subst hother
    rw [getCoins_setCoins_self, Coins.denomTotal_plus hminus, Coins.denomTotal_negative]
    ring
  · rw [getCoins_setCoins_of_ne am newCoins (Ne.symm hother), sub_zero]

/-! ## What the calls leave alone -/

/-- Accounts are still there, with nothing but their coins changed. -/
def OnlyCoins (am am' : AccountStore) : Prop :=
  ∀ addr acc, am.getAccount addr = some acc → ∃ coins, am'.getAccount addr = some { acc with coins }

namespace OnlyCoins

variable {am am' am'' : AccountStore}

theorem refl (am : AccountStore) : OnlyCoins am am := fun _ acc hacc => ⟨acc.coins, hacc⟩

theorem of_eq (h : am' = am) : OnlyCoins am am' := h ▸ refl am

theorem trans (h : OnlyCoins am am') (h' : OnlyCoins am' am'') : OnlyCoins am am'' := by
  intro addr acc hacc
  obtain ⟨coins, hacc'⟩ := h addr acc hacc
  obtain ⟨coins', hacc''⟩ := h' addr _ hacc'
  exact ⟨coins', hacc''⟩

theorem setCoins (am : AccountStore) (addr : Address) (amt : Coins) :
    OnlyCoins am (Bank.setCoins am addr amt) := by
  intro other acc hacc
  by_cases heq : addr = other
  · subst heq
    rw [Bank.setCoins, hacc]
    exact ⟨amt, AccountStore.getAccount_setAccount_self _ _ _⟩
  · refine ⟨acc.coins, ?_⟩
    rw [Bank.setCoins]
    split <;> rw [AccountStore.getAccount_setAccount_of_ne _ _ heq] <;> exact hacc

theorem subtractCoins {addr : Address} {amt : Coins} (h : Bank.subtractCoins am addr amt = .ok am') :
    OnlyCoins am am' := by
  rw [Bank.subtractCoins, bind_eq_ok] at h
  obtain ⟨newCoins, -, h⟩ := h
  split_ifs at h
  cases h
  exact setCoins am addr newCoins

theorem addCoins {addr : Address} {amt : Coins} (h : Bank.addCoins am addr amt = .ok am') :
    OnlyCoins am am' := by
  rw [Bank.addCoins, bind_eq_ok] at h
  obtain ⟨newCoins, -, h⟩ := h
  split_ifs at h
  cases h
  exact setCoins am addr newCoins

end OnlyCoins

end Tepleton.Bank
