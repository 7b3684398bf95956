import Tepleton.Types.Coin

/-!
# Accounts: `x/auth/account.go` and `x/auth/mapper.go`

The account store maps addresses to accounts and keeps the counter that numbers new accounts.
-/

namespace Tepleton.Auth

open Lib

/-- `BaseAccount`; the address is the key it is stored under. -/
structure Account where
  coins : Coins
  pubKey : Option PubKey
  accountNumber : ℤ
  sequence : ℤ
  deriving DecidableEq, Repr

/-- The store behind an `AccountMapper`. -/
structure AccountStore where
  accounts : KVStore Address Account
  globalAccountNumber : ℤ

namespace AccountStore

def getAccount (am : AccountStore) (addr : Address) : Option Account := am.accounts[addr]?

def setAccount (am : AccountStore) (addr : Address) (acc : Account) : AccountStore :=
  { am with accounts := am.accounts.insert addr acc }

/-- `AccountMapper.NewAccountWithAddress`: a blank account with the next account number. -/
def newAccountWithAddress (am : AccountStore) : AccountStore × Account :=
  ({ am with globalAccountNumber := int64 (am.globalAccountNumber + 1) },
    ⟨[], none, am.globalAccountNumber, 0⟩)

theorem getAccount_setAccount_self (am : AccountStore) (addr : Address) (acc : Account) :
    (am.setAccount addr acc).getAccount addr = some acc :=
  KVStore.getElem?_insert_self ..

theorem getAccount_setAccount_of_ne (am : AccountStore) {addr other : Address} (acc : Account)
    (hne : addr ≠ other) : (am.setAccount addr acc).getAccount other = am.getAccount other :=
  KVStore.getElem?_insert_of_ne _ _ hne

end AccountStore

end Tepleton.Auth
