import Tepleton.Bank.Keeper
import Tepleton.Types.SortedCoins

/-!
# Sending coins: `x/bank/msgs.go`, `x/bank/handler.go`

A `MsgSend` takes coins from its inputs and gives coins to its outputs, one account after the other;
an address may stand on both sides and any number of times.  That the two sides have the same total
is checked in `ValidateBasic` only.

`Moved` says what a part of such a transfer does to all accounts.  One `subtractCoins` or `addCoins`
moves coins, and moves are put together by adding up what they change.
-/

namespace Tepleton.Bank

open Lib Auth

/-! ## Messages -/

/-- The fields of an `Input` and of an `Output`. -/
structure Transfer where
  address : Address
  coins : Coins
  deriving DecidableEq, Repr

abbrev Input := Transfer

abbrev Output := Transfer

/-- `sdk.ErrInvalidAddress` for the empty address, which has an empty text. -/
def errInvalidAddress : SdkError := ⟨7, "invalid address"⟩

def errInvalidCoins (msg : String) : SdkError := ⟨11, if msg = "" then "invalid coins" else msg⟩

def errNoInputs : SdkError := ⟨101, "invalid input coins"⟩

def errNoOutputs : SdkError := ⟨102, "invalid output coins"⟩

/-- The checks of an input and of an output. -/
def Transfer.validateBasic (transfer : Transfer) : Outcome Unit :=
  if transfer.address = [] then throw (.error errInvalidAddress)
  else if ¬ transfer.coins.isValid then
    throw (.error (errInvalidCoins (coinsString transfer.coins)))
  else if ¬ transfer.coins.isPositive then
    throw (.error (errInvalidCoins (coinsString transfer.coins)))
  else return

def Input.validateBasic (input : Input) : Outcome Unit := Transfer.validateBasic input

def Output.validateBasic (output : Output) : Outcome Unit := Transfer.validateBasic output

structure MsgSend where
  inputs : List Input
  outputs : List Output
  deriving DecidableEq, Repr

/-- The loop of `MsgSend.ValidateBasic` over one side: each entry is checked and then added. -/
def checkedTotal (validateBasic : Transfer → Outcome Unit) (side : List Transfer) : Outcome Coins :=
  side.foldlM (fun total transfer => do
    validateBasic transfer
    total.plus transfer.coins) []

def MsgSend.validateBasic (msg : MsgSend) : Outcome Unit :=
  if msg.inputs = [] then throw (.error errNoInputs)
  else if msg.outputs = [] then throw (.error errNoOutputs)
  else do
    let totalIn ← checkedTotal Input.validateBasic msg.inputs
    let totalOut ← checkedTotal Output.validateBasic msg.outputs
    if totalIn.isEqual totalOut then return
    else throw (.error (errInvalidCoins (coinsString totalIn)))

def MsgSend.getSigners (msg : MsgSend) : List Address := msg.inputs.map Transfer.address

structure MsgIssue where
  banker : Address
  outputs : List Output
  deriving DecidableEq, Repr

def MsgIssue.validateBasic (msg : MsgIssue) : Outcome Unit :=
  if msg.outputs = [] then throw (.error errNoOutputs)
  else msg.outputs.forM Output.validateBasic

/-! ## Handling them -/

def inputOutputCoins (am : AccountStore) (inputs : List Input) (outputs : List Output) :
    Outcome AccountStore := do
  let am ← inputs.foldlM (fun am input => subtractCoins am input.address input.coins) am
  outputs.foldlM (fun am output => addCoins am output.address output.coins) am

/-- The messages of the module. -/
inductive Msg
  | send (msg : MsgSend)
  | issue (msg : MsgIssue)
  deriving DecidableEq, Repr

def handleMsgSend (am : AccountStore) (msg : MsgSend) : Outcome AccountStore :=
  inputOutputCoins am msg.inputs msg.outputs

def handleMsgIssue (_ : AccountStore) (_ : MsgIssue) : Outcome AccountStore :=
  .error (.panic .notImplementedYet)

/-- `NewHandler`. -/
def handle (am : AccountStore) : Msg → Outcome AccountStore
  | .send msg => handleMsgSend am msg
  | .issue msg => handleMsgIssue am msg

variable {am am' : AccountStore} {addr : Address} {amt : Coins} {amount : Transfer → String → ℤ}
  {side : List Transfer}

theorem handle_onlyCoins {msg : Msg} (h : handle am msg = .ok am') : OnlyCoins am am' := by
  cases msg with
  | issue msg => cases h
  | send msg =>
    rw [handle, handleMsgSend, inputOutputCoins, bind_eq_ok] at h
    obtain ⟨middle, hinputs, houtputs⟩ := h
    have hmiddle : OnlyCoins am middle := foldlM_invariant (OnlyCoins am) (.refl am)
      (fun _ htrans hstep => htrans.trans (.subtractCoins hstep)) hinputs
    exact foldlM_invariant (OnlyCoins am) hmiddle
      (fun _ htrans hstep => htrans.trans (.addCoins hstep)) houtputs

/-! ## What all accounts hold -/

/-- What all accounts together hold of a denomination. -/
def supply (denom : String) (am : AccountStore) : ℤ :=
  am.accounts.sumBy fun _ acc => acc.coins.denomTotal denom

/-- The coin list of every account is sorted, with strictly positive amounts. -/
def AllCanonical (am : AccountStore) : Prop := ∀ addr, (getCoins am addr).Canonical

theorem allCanonical_of_toList (h : ∀ entry ∈ am.accounts.toList, entry.2.coins.Canonical) :
    AllCanonical am := by
  intro addr
  unfold getCoins
  split
  · exact Coins.canonical_nil
  · rename_i acc hacc
    exact h (addr, acc) (KVStore.mem_toList.mpr hacc)

theorem supply_setCoins (denom : String) (am : AccountStore) (addr : Address) (amt : Coins) :
    supply denom (setCoins am addr amt) =
      supply denom am - (getCoins am addr).denomTotal denom + amt.denomTotal denom := by
  cases hacc : am.getAccount addr with
  | none =>
    have hcoins : getCoins am addr = [] := by simp only [getCoins, hacc]
    have hset : (setCoins am addr amt).accounts =
        am.accounts.insert addr ⟨amt, none, am.globalAccountNumber, 0⟩ := by
      simp only [setCoins, hacc]
      rfl
    rw [supply, hset, KVStore.sumBy_insert_of_none _ _ hacc, hcoins, Coins.denomTotal_nil, supply]
    ring
  | some acc =>
    have hcoins : getCoins am addr = acc.coins := by simp only [getCoins, hacc]
    have hset : (setCoins am addr amt).accounts =
        am.accounts.insert addr { acc with coins := amt } := by
      simp only [setCoins, hacc]
      rfl
    rw [supply, hset, KVStore.sumBy_insert, hcoins, supply, KVStore.sumBy_eq_add_erase _ hacc]
    ring

theorem getAccount_setCoins_of_ne (am : AccountStore) {other : Address} (amt : Coins)
    (hne : addr ≠ other) : (setCoins am addr amt).getAccount other = am.getAccount other := by
  unfold setCoins
  split <;> simp [AccountStore.getAccount, AccountStore.setAccount,
    AccountStore.newAccountWithAddress, KVStore.getElem?_insert_of_ne _ _ hne]

theorem AllCanonical.setCoins (h : AllCanonical am) (addr : Address) (hamt : amt.Canonical) :
    AllCanonical (setCoins am addr amt) := by
  intro other
  by_cases hother : addr = other
  · subst hother
    rw [getCoins_setCoins_self]
    exact hamt
  · rw [getCoins_setCoins_of_ne am amt hother]
    exact h other

/-! ## Moving coins -/

/-- What a list of signed transfers gives to an address. -/
def received (amount : Transfer → String → ℤ) (side : List Transfer) (addr : Address)
    (denom : String) : ℤ :=
  (side.map fun transfer => if transfer.address = addr then amount transfer denom else 0).sum

/-- From `am` to `am'` every transfer of `side` has given its address `amount`, and nothing else has
happened to any account. -/
structure Moved (amount : Transfer → String → ℤ) (side : List Transfer) (am am' : AccountStore) :
    Prop where
  balance (addr : Address) (denom : String) :
    (getCoins am' addr).denomTotal denom =
      (getCoins am addr).denomTotal denom + received amount side addr denom
  supply (denom : String) :
    supply denom am' = supply denom am + (side.map (amount · denom)).sum
  untouched (addr : Address) (h : addr ∉ side.map Transfer.address) :
    am'.getAccount addr = am.getAccount addr

theorem Moved.nil (amount : Transfer → String → ℤ) (am : AccountStore) : Moved amount [] am am where
  balance _ _ := by simp [received]
  supply _ := by simp
  untouched _ _ := rfl

theorem Moved.trans {side' : List Transfer} {am'' : AccountStore} (h : Moved amount side am am')
    (hrest : Moved amount side' am' am'') : Moved amount (side ++ side') am am'' where
  balance addr denom := by
    rw [hrest.balance, h.balance]
    simp only [received, List.map_append, List.sum_append]
    ring
  supply denom := by
    rw [hrest.supply, h.supply, List.map_append, List.sum_append]
    ring
  untouched addr haddr := by
    rw [List.map_append, List.mem_append, not_or] at haddr
    rw [hrest.untouched addr haddr.2, h.untouched addr haddr.1]

theorem moved_of_foldlM {step : AccountStore → Transfer → Outcome AccountStore}
    (hstep : ∀ {am transfer am'}, step am transfer = .ok am' → Moved amount [transfer] am am')
    (h : side.foldlM step am = .ok am') : Moved amount side am am' := by
  induction side generalizing am with
  | nil =>
    cases h
    exact .nil amount _
  | cons transfer side ih =>
    rw [List.foldlM_cons, bind_eq_ok] at h
    obtain ⟨middle, hmiddle, h⟩ := h
    exact (hstep hmiddle).trans (ih h)

theorem moved_setCoins {transfer : Transfer} {newCoins : Coins}
    (h : ∀ denom, newCoins.denomTotal denom =
      (getCoins am transfer.address).denomTotal denom + amount transfer denom) :
    Moved amount [transfer] am (setCoins am transfer.address newCoins) where
  balance addr denom := by
    simp only [received, List.map_cons, List.map_nil, List.sum_cons, List.sum_nil, add_zero]
    split_ifs with haddr
    · rw [← haddr, getCoins_setCoins_self, h denom]
    · rw [getCoins_setCoins_of_ne am newCoins haddr, add_zero]
  supply denom := by
    rw [supply_setCoins, h denom]
    simp only [List.map_cons, List.map_nil, List.sum_cons, List.sum_nil]
    ring
  untouched addr haddr :=
    getAccount_setCoins_of_ne am newCoins (Ne.symm (by simpa using haddr))

/-- What an output gives. -/
def given (transfer : Transfer) (denom : String) : ℤ := transfer.coins.denomTotal denom

/-- What an input takes. -/
def taken (transfer : Transfer) (denom : String) : ℤ := -transfer.coins.denomTotal denom

theorem moved_of_subtractCoins {input : Input}
    (h : subtractCoins am input.address input.coins = .ok am') : Moved taken [input] am am' := by
  obtain ⟨newCoins, hminus, rfl⟩ := subtractCoins_eq_ok h
  apply moved_setCoins
  intro denom
  rw [Coins.denomTotal_plus hminus, Coins.denomTotal_negative, taken]

theorem moved_of_addCoins {output : Output} (h : addCoins am output.address output.coins = .ok am')
    : Moved given [output] am am' := by
  obtain ⟨newCoins, hplus, rfl⟩ := addCoins_eq_ok h
  apply moved_setCoins
  intro denom
  rw [Coins.denomTotal_plus hplus, given]

theorem AllCanonical.subtractCoins (hall : AllCanonical am) (hsorted : amt.Sorted)
    (hnonzero : amt.Nonzero) (h : subtractCoins am addr amt = .ok am') : AllCanonical am' := by
  rw [Bank.subtractCoins, bind_eq_ok] at h
  obtain ⟨newCoins, hminus, h⟩ := h
  split_ifs at h with hnonneg
  cases h
  exact hall.setCoins addr
    ((hall addr).plus hsorted.negative hnonzero.negative hminus hnonneg)

theorem AllCanonical.addCoins (hall : AllCanonical am) (hsorted : amt.Sorted)
    (hnonzero : amt.Nonzero) (h : addCoins am addr amt = .ok am') : AllCanonical am' := by
  rw [Bank.addCoins, bind_eq_ok] at h
  obtain ⟨newCoins, hplus, h⟩ := h
  split_ifs at h with hnonneg
  cases h
  exact hall.setCoins addr ((hall addr).plus hsorted hnonzero hplus hnonneg)

/-! ## What `ValidateBasic` ensures -/

theorem canonical_of_validateBasic {transfer : Transfer} (h : transfer.validateBasic = .ok ()) :
    transfer.coins.Canonical := by
  rw [Transfer.validateBasic] at h
  split_ifs at h with haddress hvalid hpositive
  exact Coins.canonical_of_checks (by simpa using hvalid) (by simpa using hpositive)

/-- The total of a side, and that all its lists are canonical. -/
theorem checkedTotal_spec {total : Coins} (h : checkedTotal Transfer.validateBasic side = .ok total)
    :
    (∀ transfer ∈ side, transfer.coins.Canonical) ∧
      ∀ denom, total.denomTotal denom = (side.map (given · denom)).sum := by
  -- the loop starts from the total of the entries before
  have hfrom : ∀ (start : Coins), side.foldlM (fun total transfer => do
        Transfer.validateBasic transfer
        total.plus transfer.coins) start = .ok total →
      (∀ transfer ∈ side, transfer.coins.Canonical) ∧
        ∀ denom, total.denomTotal denom =
          start.denomTotal denom + (side.map (given · denom)).sum := by
    clear h
    induction side with
    | nil =>
      intro start h
      cases h
      simp
    | cons transfer side ih =>
      intro start h
      rw [List.foldlM_cons, bind_eq_ok] at h
      obtain ⟨next, hnext, h⟩ := h
      rw [bind_eq_ok] at hnext
      obtain ⟨_, hvalid, hplus⟩ := hnext
      obtain ⟨hrest, htotal⟩ := ih next h
      refine ⟨List.forall_mem_cons.mpr ⟨canonical_of_validateBasic hvalid, hrest⟩, ?_⟩
      intro denom
      rw [htotal denom, Coins.denomTotal_plus hplus, List.map_cons, List.sum_cons, given]
      ring
  simpa using hfrom [] h

theorem validateBasic_spec {msg : MsgSend} (h : msg.validateBasic = .ok ()) :
    (∀ transfer ∈ msg.inputs ++ msg.outputs, transfer.coins.Canonical) ∧
      ∀ denom, (msg.inputs.map (given · denom)).sum = (msg.outputs.map (given · denom)).sum := by
  rw [MsgSend.validateBasic] at h
  split_ifs at h with hinputs houtputs
  simp only [bind_eq_ok] at h
  obtain ⟨totalIn, hin, totalOut, hout, h⟩ := h
  split_ifs at h with hequal
  obtain ⟨hcanonicalIn, htotalIn⟩ := checkedTotal_spec hin
  obtain ⟨hcanonicalOut, htotalOut⟩ := checkedTotal_spec hout
  refine ⟨List.forall_mem_append.mpr ⟨hcanonicalIn, hcanonicalOut⟩, ?_⟩
  intro denom
  rw [← htotalIn, ← htotalOut, Coins.isEqual_iff.mp hequal]

theorem sum_taken (side : List Transfer) (denom : String) :
    (side.map (taken · denom)).sum = -(side.map (given · denom)).sum := by
  induction side with
  | nil => rfl
  | cons transfer side ih =>
    rw [List.map_cons, List.map_cons, List.sum_cons, List.sum_cons, ih, taken, given]
    ring

theorem received_taken (side : List Transfer) (addr : Address) (denom : String) :
    received taken side addr denom = -received given side addr denom := by
  induction side with
  | nil => rfl
  | cons transfer side ih =>
    simp only [received, List.map_cons, List.sum_cons, taken, given] at ih ⊢
    rw [ih]
    split_ifs <;> ring

theorem AllCanonical.inputOutputCoins {msg : MsgSend} (hall : AllCanonical am)
    (hvalid : msg.validateBasic = .ok ())
    (h : Bank.inputOutputCoins am msg.inputs msg.outputs = .ok am') : AllCanonical am' := by
  obtain ⟨hcanonical, -⟩ := validateBasic_spec hvalid
  rw [List.forall_mem_append] at hcanonical
  rw [Bank.inputOutputCoins, bind_eq_ok] at h
  obtain ⟨middle, hinputs, houtputs⟩ := h
  have hmiddle : AllCanonical middle := foldlM_invariant AllCanonical hall
    (fun hmem hall hstep => hall.subtractCoins (hcanonical.1 _ hmem).sorted
      (hcanonical.1 _ hmem).nonzero hstep) hinputs
  exact foldlM_invariant AllCanonical hmiddle
    (fun hmem hall hstep => hall.addCoins (hcanonical.2 _ hmem).sorted
      (hcanonical.2 _ hmem).nonzero hstep) houtputs

/-- A valid transfer that succeeds neither creates nor destroys coins of any denomination.  Every
account gains exactly what the outputs give it less what the inputs take from it, coin lists stay
sorted and positive, and accounts that the message does not name are as they were. -/
theorem inputOutputCoins_conserves {am am' : AccountStore} {msg : MsgSend} (hall : AllCanonical am)
    (hvalid : msg.validateBasic = .ok ())
    (h : inputOutputCoins am msg.inputs msg.outputs = .ok am') :
    (∀ denom, supply denom am' = supply denom am) ∧
    (∀ addr denom, (getCoins am' addr).denomTotal denom = (getCoins am addr).denomTotal denom +
      (received given msg.outputs addr denom - received given msg.inputs addr denom)) ∧
    AllCanonical am' ∧
    ∀ addr, addr ∉ msg.inputs.map Transfer.address → addr ∉ msg.outputs.map Transfer.address →
      am'.getAccount addr = am.getAccount addr := by
  have hcanonical := hall.inputOutputCoins hvalid h
  obtain ⟨-, htotals⟩ := validateBasic_spec hvalid
  rw [inputOutputCoins, bind_eq_ok] at h
  obtain ⟨middle, hinputs, houtputs⟩ := h
  have htaken := moved_of_foldlM (fun hstep => moved_of_subtractCoins hstep) hinputs
  have hgiven := moved_of_foldlM (fun hstep => moved_of_addCoins hstep) houtputs
  refine ⟨?_, ?_, ?_, ?_⟩
  · intro denom
    rw [hgiven.supply, htaken.supply, sum_taken, htotals denom]
    ring
  · intro addr denom
    rw [hgiven.balance, htaken.balance, received_taken]
    ring
  · exact hcanonical
  · intro addr hnotIn hnotOut
    rw [hgiven.untouched addr hnotOut, htaken.untouched addr hnotIn]

/-- Two accounts that trade with each other. -/
def traders : AccountStore :=
  setCoins (setCoins ⟨∅, 0⟩ [1] [⟨"atom", 10⟩]) [2] [⟨"photon", 7⟩]

/-- Each of the two gives some of its coins and gets some of the other's. -/
def trade : MsgSend where
  inputs := [⟨[1], [⟨"atom", 4⟩]⟩, ⟨[2], [⟨"photon", 7⟩]⟩]
  outputs := [⟨[2], [⟨"atom", 4⟩]⟩, ⟨[1], [⟨"photon", 6⟩]⟩, ⟨[3], [⟨"photon", 1⟩]⟩]

theorem traders_canonical : AllCanonical traders := allCanonical_of_toList (by decide +kernel)

theorem inputOutputCoins_conserves_trade :
    ∃ am', inputOutputCoins traders trade.inputs trade.outputs = .ok am' ∧
      getCoins am' [1] = [⟨"atom", 6⟩, ⟨"photon", 6⟩] ∧ supply "photon" am' = 7 := by
  have hpasses : passes (fun am' => decide (getCoins am' [1] = [⟨"atom", 6⟩, ⟨"photon", 6⟩]))
      (inputOutputCoins traders trade.inputs trade.outputs) = true := by decide +kernel
  have hvalid : trade.validateBasic = .ok () := by decide +kernel
  obtain ⟨am', h, htest⟩ := exists_of_passes hpasses
  have hconserves := inputOutputCoins_conserves traders_canonical hvalid h
  refine ⟨am', h, of_decide_eq_true htest, ?_⟩
  rw [hconserves.1]
  decide +kernel

end Tepleton.Bank
