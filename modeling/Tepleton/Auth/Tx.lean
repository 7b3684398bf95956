import Tepleton.Auth.Account

/-!
# Standard transactions: `x/auth/stdtx.go`

A `StdTx` carries messages, a fee, a memo and one signature for each address that has to sign.  The
addresses come from the messages; `GetSigners` lists each of them once, in the order of their first
appearance.
-/

namespace Tepleton.Auth

open Lib

structure StdFee where
  amount : Coins
  gas : ℤ
  deriving DecidableEq, Repr

structure StdSignature where
  pubKey : Option PubKey
  signature : Bytes
  accountNumber : ℤ
  sequence : ℤ
  deriving DecidableEq, Repr

structure StdTx (Msg : Type) where
  msgs : List Msg
  fee : StdFee
  signatures : List StdSignature
  memo : Bytes
  deriving DecidableEq, Repr

structure StdSignDoc where
  chainID : String
  accountNumber : ℤ
  sequence : ℤ
  feeBytes : Bytes
  msgsBytes : Bytes
  memo : Bytes
  deriving DecidableEq, Repr

/-- What the module gets from the messages of an application and from other libraries: encodings and
public-key cryptography. -/
structure Env (Msg : Type) where
  getSigners : Msg → List Address
  getSignBytes : Msg → Bytes
  marshalFee : StdFee → Bytes
  marshalMsgs : List Bytes → Bytes
  marshalDoc : StdSignDoc → Bytes
  /-- `PubKey.Address`. -/
  address : PubKey → Address
  /-- `PubKey.VerifyBytes`. -/
  verifyBytes : PubKey → Bytes → Bytes → Bool
  /-- An account is stored with its address. -/
  encodeAccount : Address → Account → Bytes
  encodeCoins : Coins → Bytes

variable {Msg : Type} (env : Env Msg)

def stdSignBytes (chainID : String) (accnum sequence : ℤ) (fee : StdFee) (msgs : List Msg)
    (memo : Bytes) : Bytes :=
  env.marshalDoc
    { chainID
      accountNumber := accnum
      sequence
      feeBytes := env.marshalFee fee
      msgsBytes := env.marshalMsgs (msgs.map env.getSignBytes)
      memo }

/-- The body of the loop in `GetSigners`: an address that has been seen is left out. -/
def addSigner (signers : List Address) (addr : Address) : List Address :=
  if addr ∈ signers then signers else signers ++ [addr]

def StdTx.getSigners (tx : StdTx Msg) : List Address :=
  (tx.msgs.flatMap env.getSigners).foldl addSigner []

variable {signers : List Address}

theorem mem_addSigner {addr other : Address} :
    other ∈ addSigner signers addr ↔ other ∈ signers ∨ other = addr := by
  unfold addSigner
  split_ifs with hseen
  · constructor
    · exact .inl
    · rintro (hmem | rfl)
      · exact hmem
      · exact hseen
  · simp

theorem nodup_addSigner (h : signers.Nodup) (addr : Address) : (addSigner signers addr).Nodup := by
  unfold addSigner
  split_ifs with hseen
  · exact h
  · rw [List.nodup_append_comm, List.singleton_append]
    exact List.nodup_cons.mpr ⟨hseen, h⟩

theorem foldl_addSigner_spec (h : signers.Nodup) (addrs : List Address) :
    (addrs.foldl addSigner signers).Nodup ∧
      ∀ other, other ∈ addrs.foldl addSigner signers ↔ other ∈ signers ∨ other ∈ addrs := by
  induction addrs generalizing signers with
  | nil => exact ⟨h, by simp⟩
  | cons addr addrs ih =>
    obtain ⟨hnodup, hmem⟩ := ih (nodup_addSigner h addr)
    refine ⟨hnodup, fun other => ?_⟩
    rw [List.foldl_cons, hmem, mem_addSigner, List.mem_cons, or_assoc]

theorem nodup_getSigners (tx : StdTx Msg) : (tx.getSigners env).Nodup :=
  (foldl_addSigner_spec List.nodup_nil _).1

theorem mem_getSigners {tx : StdTx Msg} {addr : Address} :
    addr ∈ tx.getSigners env ↔ ∃ msg ∈ tx.msgs, addr ∈ env.getSigners msg := by
  have hmem := (foldl_addSigner_spec List.nodup_nil (tx.msgs.flatMap env.getSigners)).2 addr
  rw [StdTx.getSigners, hmem, List.mem_flatMap]
  simp

theorem length_getSigners (tx : StdTx Msg) :
    (tx.getSigners env).length = (tx.msgs.flatMap env.getSigners).toFinset.card := by
  have hset : (tx.getSigners env).toFinset = (tx.msgs.flatMap env.getSigners).toFinset := by
    ext addr
    rw [List.mem_toFinset, List.mem_toFinset, mem_getSigners, List.mem_flatMap]
  rw [← hset, List.toFinset_card_of_nodup (nodup_getSigners env tx)]

/-! ## An environment -/

/-- Accounts with their address, field by field. -/
def accountWire : Wire (Address × Account) :=
  let bytes := Wire.byte.list
  (bytes.pair (Coin.wire.list.pair (bytes.option.pair (Wire.int.pair Wire.int)))).retract
    (fun p => (p.1, p.2.coins, p.2.pubKey, p.2.accountNumber, p.2.sequence))
    (fun fields => (fields.1, ⟨fields.2.1, fields.2.2.1, fields.2.2.2.1, fields.2.2.2.2⟩)) fun _ => rfl

/-- Messages are the lists of their signers, a public key is its own address, and a signature is the
key in front of what is signed. -/
def plainEnv : Env (List Address) :=
  let bytes := Wire.byte.list
  { getSigners := id
    getSignBytes := bytes.list.put
    marshalFee := fun fee => (Coin.wire.list.pair Wire.int).put (fee.amount, fee.gas)
    marshalMsgs := bytes.list.put
    marshalDoc := fun doc =>
      (Wire.string.pair (Wire.int.pair (Wire.int.pair (bytes.pair (bytes.pair bytes))))).put
        (doc.chainID, doc.accountNumber, doc.sequence, doc.feeBytes, doc.msgsBytes, doc.memo)
    address := id
    verifyBytes := fun pubKey signBytes signature => decide (signature = pubKey ++ signBytes)
    encodeAccount := fun addr acc => accountWire.put (addr, acc)
    encodeCoins := Coin.wire.list.put }

/-- The transaction with the signatures of some keys, each with an account number and a sequence
number. -/
def StdTx.signedBy (tx : StdTx (List Address)) (chainID : String) (keys : List (PubKey × ℤ × ℤ)) :
    StdTx (List Address) :=
  { tx with
    signatures := keys.map fun (pubKey, accnum, sequence) =>
      { pubKey := some pubKey
        signature := pubKey ++
          stdSignBytes plainEnv chainID accnum sequence tx.fee tx.msgs tx.memo
        accountNumber := accnum
        sequence } }

/-- Accounts numbered from zero that have sent nothing yet, each with some atoms. -/
def funded (amounts : List (Address × ℤ)) : AccountStore where
  accounts := amounts.zipIdx.foldl (fun accounts p => accounts.insert p.1.1
    { coins := [⟨"atom", p.1.2⟩], pubKey := none, accountNumber := p.2, sequence := 0 }) ∅
  globalAccountNumber := amounts.length

end Tepleton.Auth
