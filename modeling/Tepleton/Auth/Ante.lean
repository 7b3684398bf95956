import Tepleton.Auth.Tx
import Tepleton.Bank.Keeper
import Tepleton.Baseapp.Program
import Tepleton.Types.SortedCoins

/-!
# The ante handler: `x/auth/ante.go`, `x/auth/feekeeper.go`

The ante handler checks one signature after the other and saves each account, with its sequence
number raised, before it looks at the next.  Whatever it does after a save, the save stays: an abort
is only a return value, and a panic is recovered far above.

The handler is a procedure over accounts and collected fees.  `Proc.run` runs it on a state with the
gas meter it has set up; reading and writing cost gas by the length of the encoded value, and running
out of it is a panic.
-/

namespace Tepleton.Auth

open Lib Baseapp Bank

/-! ## Procedures -/

/-- Why the ante handler does not let a transaction pass. -/
inductive Stop
  | abort (err : SdkError)
  | panic (value : GoPanic)
  deriving DecidableEq, Repr

/-- The stores that the ante handler uses. -/
structure AnteState where
  accounts : AccountStore
  /-- What lies under `collectedFeesKey`. -/
  collectedFees : Option Coins

/-- A procedure that returns an `α` or stops. -/
inductive Proc (α : Type)
  | done (value : α)
  | stop (reason : Stop)
  | load (addr : Address) (cont : Option Account → Proc α)
  | save (addr : Address) (acc : Account) (cont : Proc α)
  | loadFees (cont : Option Coins → Proc α)
  | saveFees (coins : Coins) (cont : Proc α)
  | gas (amount : ℤ) (descriptor : String) (cont : Proc α)

namespace Proc

variable {α β : Type}

/-- One procedure after the other. -/
def bind : Proc α → (α → Proc β) → Proc β
  | .done value, f => f value
  | .stop reason, _ => .stop reason
  | .load addr cont, f => .load addr fun acc => (cont acc).bind f
  | .save addr acc cont, f => .save addr acc (cont.bind f)
  | .loadFees cont, f => .loadFees fun coins => (cont coins).bind f
  | .saveFees coins cont, f => .saveFees coins (cont.bind f)
  | .gas amount descriptor cont, f => .gas amount descriptor (cont.bind f)

instance : Monad Proc where
  pure := .done
  bind := bind

end Proc

/-- `ConsumeGas` on the meter of the ante handler, which nobody sees after a panic. -/
def charge (meter : GasMeter) (amount : ℤ) (descriptor : String) : Except GoPanic GasMeter :=
  match meter.consumeGas amount descriptor with
  | (.error value, _) => .error value
  | (.ok (), meter) => .ok meter

/-- The gas for `gasKVStore.Get`. -/
def chargeGet (meter : GasMeter) (value : Option Bytes) : Except GoPanic GasMeter := do
  let meter ← charge meter 10 "GetFlat"
  charge meter (value.elim 0 fun bz => (bz.length : ℤ)) "ReadPerByte"

/-- The gas for `gasKVStore.Set`. -/
def chargeSet (meter : GasMeter) (value : Bytes) : Except GoPanic GasMeter := do
  let meter ← charge meter 10 "SetFlat"
  charge meter (10 * value.length) "SetPerByte"

variable {Msg α β : Type} (env : Env Msg)

/-- A procedure runs.  The gas of a write is charged before the write. -/
def Proc.run : Proc α → GasMeter → AnteState → Except Stop (α × GasMeter) × AnteState
  | .done value, meter, s => (.ok (value, meter), s)
  | .stop reason, _, s => (.error reason, s)
  | .load addr cont, meter, s =>
    let acc := s.accounts.getAccount addr
    match chargeGet meter (acc.map (env.encodeAccount addr)) with
    | .error value => (.error (.panic value), s)
    | .ok meter => (cont acc).run meter s
  | .save addr acc cont, meter, s =>
    match chargeSet meter (env.encodeAccount addr acc) with
    | .error value => (.error (.panic value), s)
    | .ok meter => cont.run meter { s with accounts := s.accounts.setAccount addr acc }
  | .loadFees cont, meter, s =>
    match chargeGet meter (s.collectedFees.map env.encodeCoins) with
    | .error value => (.error (.panic value), s)
    | .ok meter => (cont s.collectedFees).run meter s
  | .saveFees coins cont, meter, s =>
    match chargeSet meter (env.encodeCoins coins) with
    | .error value => (.error (.panic value), s)
    | .ok meter => cont.run meter { s with collectedFees := some coins }
  | .gas amount descriptor cont, meter, s =>
    match charge meter amount descriptor with
    | .error value => (.error (.panic value), s)
    | .ok meter => cont.run meter s

/-! ## The handler -/

/-- `Address.String`. -/
def addressString (addr : Address) : String :=
  String.ofList (addr.flatMap fun b => [hexDigit (b.val / 16), hexDigit (b.val % 16)])
where
  hexDigit (d : ℕ) : Char := (Nat.digitChar d).toUpper

/-- The text of an error, or the default text if there is none. -/
def orDefault (msg default : String) : String := if msg = "" then default else msg

def errInvalidSequence (msg : String) : SdkError := ⟨3, msg⟩
def errUnauthorized (msg : String) : SdkError := ⟨4, msg⟩
def errInsufficientFunds (msg : String) : SdkError := ⟨5, msg⟩
def errInvalidPubKey (msg : String) : SdkError := ⟨8, msg⟩
def errUnknownAddress (msg : String) : SdkError := ⟨9, orDefault msg "unknown address"⟩
def errMemoTooLarge (msg : String) : SdkError := ⟨13, msg⟩

def deductFeesCost : ℤ := 10
def memoCostPerByte : ℤ := 1
def verifyCost : ℤ := 100
def maxMemoCharacters : ℕ := 100

/-- The value of the panic in the arithmetic of `Int`. -/
def intOverflow : GoPanic := .other "Int overflow" ""

/-- Coins that are computed, where an overflow is a panic. -/
def coinsOr (result : Outcome Coins) : Except Stop Coins :=
  match result with
  | .error _ => .error (.panic intOverflow)
  | .ok coins => .ok coins

/-- A result that is there already. -/
def ofExcept (result : Except Stop α) : Proc α :=
  match result with
  | .error reason => .stop reason
  | .ok value => .done value

def getAccount (addr : Address) : Proc (Option Account) := .load addr .done

def setAccount (addr : Address) (acc : Account) : Proc Unit := .save addr acc (.done ())

def consumeGas (amount : ℤ) (descriptor : String) : Proc Unit := .gas amount descriptor (.done ())

def getCollectedFees : Proc Coins := .loadFees fun coins => .done (coins.getD [])

def setCollectedFees (coins : Coins) : Proc Unit := .saveFees coins (.done ())

def addCollectedFees (coins : Coins) : Proc Unit := do
  let collected ← getCollectedFees
  let newCoins ← ofExcept (coinsOr (collected.plus coins))
  setCollectedFees newCoins

/-- The part of `processSig` before the signature is verified: the key to verify with, and the
account with the next sequence number and this key. -/
def checkAccount (addr : Address) (sig : StdSignature) :
    Option Account → Except SdkError (PubKey × Account)
  | none => .error (errUnknownAddress (addressString addr))
  | some acc =>
    if acc.accountNumber ≠ sig.accountNumber then
      .error (errInvalidSequence ("Invalid account number. Got " ++ toString sig.accountNumber ++
        ", expected " ++ toString acc.accountNumber))
    else if acc.sequence ≠ sig.sequence then
      .error (errInvalidSequence ("Invalid sequence. Got " ++ toString sig.sequence ++
        ", expected " ++ toString acc.sequence))
    else
      let acc := { acc with sequence := int64 (acc.sequence + 1) }
      match acc.pubKey with
      | some pubKey => .ok (pubKey, acc)
      | none =>
        match sig.pubKey with
        | none => .error (errInvalidPubKey "PubKey not found")
        | some pubKey =>
          if env.address pubKey ≠ addr then
            .error (errInvalidPubKey
              ("PubKey does not match Signer address " ++ addressString addr))
          else .ok (pubKey, { acc with pubKey := some pubKey })

def processSig (addr : Address) (sig : StdSignature) (signBytes : Bytes) : Proc Account := do
  let acc ← getAccount addr
  match checkAccount env addr sig acc with
  | .error err => .stop (.abort err)
  | .ok (pubKey, acc) => do
      consumeGas verifyCost "ante verify"
      if env.verifyBytes pubKey signBytes sig.signature then return acc
      else .stop (.abort (errUnauthorized "signature verification failed"))

def deductFees (acc : Account) (fee : StdFee) : Except Stop Account := do
  let newCoins ← coinsOr (acc.coins.minus fee.amount)
  if newCoins.isNotNegative then return { acc with coins := newCoins }
  else
    throw (.abort (errInsufficientFunds
      (coinsString acc.coins ++ " < " ++ coinsString fee.amount)))

/-- The first signer pays the fee. -/
def payFee (fee : StdFee) (acc : Account) : Proc Account :=
  if fee.amount.isZero then return acc
  else do
    consumeGas deductFeesCost "deductFees"
    let acc ← ofExcept (deductFees acc fee)
    addCollectedFees fee.amount
    return acc

variable (chainID : String) (tx : StdTx Msg)

/-- The bytes a signature is checked against.  The account number and the sequence number are those in
the signature. -/
def signBytesOf (sig : StdSignature) : Bytes :=
  stdSignBytes env chainID sig.accountNumber sig.sequence tx.fee tx.msgs tx.memo

/-- One round of the loop over the signatures. -/
def round (first : Bool) (addr : Address) (sig : StdSignature) : Proc Account := do
  let signerAcc ← processSig env addr sig (signBytesOf env chainID tx sig)
  let signerAcc ← (if first then payFee tx.fee signerAcc else pure signerAcc : Proc Account)
  setAccount addr signerAcc
  return signerAcc

/-- The loop over the signatures. -/
def rounds : Bool → List (Address × StdSignature) → Proc (List Account)
  | _, [] => return []
  | first, (addr, sig) :: rest => do
      let signerAcc ← round env chainID tx first addr sig
      let signerAccs ← rounds false rest
      return signerAcc :: signerAccs

/-- `NewAnteHandler`: it returns the accounts of the signers. -/
def anteHandler : Proc (List Account) :=
  if tx.signatures = [] then .stop (.abort (errUnauthorized "no signers"))
  else if maxMemoCharacters < tx.memo.length then
    .stop (.abort (errMemoTooLarge ("maximum number of characters is " ++
      toString maxMemoCharacters ++ " but received " ++ toString tx.memo.length ++ " characters")))
  else do
    consumeGas (memoCostPerByte * tx.memo.length) "memo"
    let signerAddrs := tx.getSigners env
    if tx.signatures.length ≠ signerAddrs.length then
      .stop (.abort (errUnauthorized "wrong number of signers"))
    else rounds env chainID tx true (signerAddrs.zip tx.signatures)

/-- The ante handler runs with a gas meter of its own. -/
def runAnteHandler (s : AnteState) : Except Stop (List Account × GasMeter) × AnteState :=
  (anteHandler env chainID tx).run env (newGasMeter tx.fee.gas) s

/-! ## Running procedures -/

section Run

variable {env} {meter : GasMeter} {s s' : AnteState} {r : Except Stop (β × GasMeter)}

theorem run_bind (p : Proc α) (f : α → Proc β) (meter : GasMeter) (s : AnteState) :
    (p >>= f).run env meter s =
      match p.run env meter s with
      | (.error reason, s) => (.error reason, s)
      | (.ok (value, meter), s) => (f value).run env meter s := by
  change (p.bind f).run env meter s = _
  induction p generalizing meter s with
  | done value => rfl
  | stop reason => rfl
  | load addr cont ih =>
    simp only [Proc.bind, Proc.run]
    split
    · rfl
    · exact ih _ _ _
  | save addr acc cont ih =>
    simp only [Proc.bind, Proc.run]
    split
    · rfl
    · exact ih _ _
  | loadFees cont ih =>
    simp only [Proc.bind, Proc.run]
    split
    · rfl
    · exact ih _ _ _
  | saveFees coins cont ih | gas amount descriptor cont ih =>
    simp only [Proc.bind, Proc.run]
    split
    · rfl
    · exact ih _ _

/-- A run has ended in a panic without doing anything. -/
def Panicked (s : AnteState) (r : Except Stop (β × GasMeter)) (s' : AnteState) : Prop :=
  s' = s ∧ ∃ value, r = .error (.panic value)

theorem run_bind_cases {p : Proc α} {f : α → Proc β} (h : (p >>= f).run env meter s = (r, s')) :
    (∃ reason, p.run env meter s = (.error reason, s') ∧ r = .error reason) ∨
      ∃ value meter' middle, p.run env meter s = (.ok (value, meter'), middle) ∧
        (f value).run env meter' middle = (r, s') := by
  rw [run_bind] at h
  cases hp : p.run env meter s with
  | mk result middle =>
    rw [hp] at h
    cases result with
    | error reason =>
      cases h
      exact .inl ⟨reason, rfl, rfl⟩
    | ok pair => exact .inr ⟨pair.1, pair.2, middle, rfl, h⟩

theorem run_getAccount_cases {addr : Address} {f : Option Account → Proc β}
    (h : (getAccount addr >>= f).run env meter s = (r, s')) :
    Panicked s r s' ∨ ∃ meter', (f (s.accounts.getAccount addr)).run env meter' s = (r, s') := by
  change (Proc.load addr f).run env meter s = (r, s') at h
  rw [Proc.run] at h
  split at h
  · cases h
    exact .inl ⟨rfl, _, rfl⟩
  · exact .inr ⟨_, h⟩

theorem run_setAccount_cases {addr : Address} {acc : Account} {f : Unit → Proc β}
    (h : (setAccount addr acc >>= f).run env meter s = (r, s')) :
    Panicked s r s' ∨ ∃ meter',
      (f ()).run env meter' { s with accounts := s.accounts.setAccount addr acc } = (r, s') := by
  change (Proc.save addr acc (f ())).run env meter s = (r, s') at h
  rw [Proc.run] at h
  split at h
  · cases h
    exact .inl ⟨rfl, _, rfl⟩
  · exact .inr ⟨_, h⟩

theorem run_consumeGas_cases {amount : ℤ} {descriptor : String} {f : Unit → Proc β}
    (h : (consumeGas amount descriptor >>= f).run env meter s = (r, s')) :
    Panicked s r s' ∨ ∃ meter', (f ()).run env meter' s = (r, s') := by
  change (Proc.gas amount descriptor (f ())).run env meter s = (r, s') at h
  rw [Proc.run] at h
  split at h
  · cases h
    exact .inl ⟨rfl, _, rfl⟩
  · exact .inr ⟨_, h⟩

theorem run_getCollectedFees_cases {f : Coins → Proc β}
    (h : (getCollectedFees >>= f).run env meter s = (r, s')) :
    Panicked s r s' ∨ ∃ meter', (f (s.collectedFees.getD [])).run env meter' s = (r, s') := by
  change (Proc.loadFees fun coins => f (coins.getD [])).run env meter s = (r, s') at h
  rw [Proc.run] at h
  split at h
  · cases h
    exact .inl ⟨rfl, _, rfl⟩
  · exact .inr ⟨_, h⟩

theorem run_setCollectedFees_cases {coins : Coins} {r : Except Stop (Unit × GasMeter)}
    (h : (setCollectedFees coins).run env meter s = (r, s')) :
    Panicked s r s' ∨ ∃ meter', r = .ok ((), meter') ∧ s' = { s with collectedFees := some coins } := by
  rw [setCollectedFees, Proc.run] at h
  split at h
  · cases h
    exact .inl ⟨rfl, _, rfl⟩
  · cases h
    exact .inr ⟨_, rfl, rfl⟩

end Run

end Tepleton.Auth
