import Tepleton.Bank.Send
import Tepleton.Ibc.Mapper

/-!
# Transfers to and from other chains: `x/ibc/types.go`, `x/ibc/handler.go`

A transfer takes the coins of a packet from its sender and appends the packet to the queue of the
destination chain.  `ValidateBasic` checks the coins with `IsValid` only, which says nothing about
signs.  What the sender loses is what the packet records, but a recorded amount may be negative, and
then the sender gains (`transfer_creates_coins`).
-/

namespace Tepleton.Ibc

open Lib Auth Bank

/-! ## Messages -/

def errInvalidSequence : SdkError := ⟨200, "invalid IBC packet sequence"⟩

def errIdenticalChains : SdkError := ⟨201, "source and destination chain cannot be identical"⟩

def IBCPacket.validateBasic (packet : IBCPacket) : Outcome Unit :=
  if packet.srcChain = packet.destChain then throw (.error errIdenticalChains)
  else if ¬ packet.coins.isValid then throw (.error (errInvalidCoins ""))
  else return

structure IBCTransferMsg where
  packet : IBCPacket
  deriving DecidableEq, Repr

def IBCTransferMsg.validateBasic (msg : IBCTransferMsg) : Outcome Unit := msg.packet.validateBasic

def IBCTransferMsg.getSigners (msg : IBCTransferMsg) : List Address := [msg.packet.srcAddr]

structure IBCReceiveMsg where
  packet : IBCPacket
  relayer : Address
  sequence : ℤ
  deriving DecidableEq, Repr

def IBCReceiveMsg.validateBasic (msg : IBCReceiveMsg) : Outcome Unit := msg.packet.validateBasic

def IBCReceiveMsg.getSigners (msg : IBCReceiveMsg) : List Address := [msg.relayer]

/-! ## Handling them -/

/-- The stores that the handler uses. -/
structure State where
  accounts : AccountStore
  store : Store

variable (cdc : Codec)

def handleIBCTransferMsg (s : State) (msg : IBCTransferMsg) : Outcome State := do
  let accounts ← subtractCoins s.accounts msg.packet.srcAddr msg.packet.coins
  let store ← postIBCPacket cdc s.store msg.packet
  return ⟨accounts, store⟩

def handleIBCReceiveMsg (s : State) (msg : IBCReceiveMsg) : Outcome State := do
  let (store, seq) ← getIngressSequence cdc s.store msg.packet.srcChain
  if msg.sequence ≠ seq then throw (.error errInvalidSequence)
  else
    let accounts ← addCoins s.accounts msg.packet.destAddr msg.packet.coins
    return ⟨accounts, setIngressSequence cdc store msg.packet.srcChain (int64 (seq + 1))⟩

/-- The messages of the module. -/
inductive Msg
  | transfer (msg : IBCTransferMsg)
  | receive (msg : IBCReceiveMsg)
  deriving DecidableEq, Repr

/-- `NewHandler`. -/
def handle (s : State) : Msg → Outcome State
  | .transfer msg => handleIBCTransferMsg cdc s msg
  | .receive msg => handleIBCReceiveMsg cdc s msg

theorem handle_onlyCoins {cdc : Codec} {s s' : State} {msg : Msg} (h : handle cdc s msg = .ok s') :
    OnlyCoins s.accounts s'.accounts := by
  cases msg with
  | transfer msg =>
    simp only [handle, handleIBCTransferMsg, bind_eq_ok, pure_eq_ok] at h
    obtain ⟨accounts, hsubtract, store, -, rfl⟩ := h
    exact .subtractCoins hsubtract
  | receive msg =>
    simp only [handle, handleIBCReceiveMsg, bind_eq_ok, Prod.exists] at h
    obtain ⟨store, seq, -, h⟩ := h
    split_ifs at h
    simp only [bind_eq_ok, pure_eq_ok] at h
    obtain ⟨accounts, hadd, rfl⟩ := h
    exact .addCoins hadd

/-! ## What a transfer does -/

/-- What an address holds of a denomination. -/
def State.balance (s : State) (addr : Address) (denom : String) : ℤ :=
  (getCoins s.accounts addr).denomTotal denom

variable {cdc} {s s' : State} {msg : IBCTransferMsg}

theorem sorted_of_validateBasic {packet : IBCPacket} (h : packet.validateBasic = .ok ()) :
    packet.coins.Sorted := by
  rw [IBCPacket.validateBasic] at h
  split_ifs at h with hchains hvalid
  exact Coins.isValid_sorted (by simpa using hvalid)

theorem handleIBCTransferMsg_eq_ok (h : handleIBCTransferMsg cdc s msg = .ok s') :
    subtractCoins s.accounts msg.packet.srcAddr msg.packet.coins = .ok s'.accounts ∧
      postIBCPacket cdc s.store msg.packet = .ok s'.store := by
  simp only [handleIBCTransferMsg, bind_eq_ok, pure_eq_ok] at h
  obtain ⟨accounts, haccounts, store, hstore, rfl⟩ := h
  exact ⟨haccounts, hstore⟩

/-- The packet that a transfer has appended to the queue of its destination: what can be read at the
place that was the end of the queue. -/
def Appended (cdc : Codec) (s s' : State) (destChain : ChainID) (packet : IBCPacket) : Prop :=
  ∃ index bz, (getEgressLength cdc s.store destChain).map Prod.snd = .ok index ∧
    s'.store[egressKey destChain index]? = some bz ∧ cdc.unmarshalPacket bz = some packet

theorem appended_iff (h : handleIBCTransferMsg cdc s msg = .ok s') {packet : IBCPacket} :
    Appended cdc s s' msg.packet.destChain packet ↔ packet = msg.packet := by
  have hpost := (handleIBCTransferMsg_eq_ok h).2
  obtain ⟨middle, index, hlength, -⟩ := postIBCPacket_eq_ok hpost
  have hstored := postIBCPacket_stored hlength hpost
  constructor
  · rintro ⟨index', bz, hlength', hstored', hpacket⟩
    rw [hlength] at hlength'
    cases hlength'
    have hbz : bz = cdc.marshalPacket msg.packet := Option.some.inj (hstored'.symm.trans hstored)
    rw [hbz, cdc.unmarshal_marshalPacket] at hpacket
    exact (Option.some.inj hpacket).symm
  · rintro rfl
    exact ⟨index, _, by rw [hlength]; rfl, hstored, cdc.unmarshal_marshalPacket _⟩

/-- The sender gains nothing and loses, in every denomination, what the appended packet records. -/
def Pays (cdc : Codec) (s s' : State) (packet : IBCPacket) : Prop :=
  (∀ denom, s'.balance packet.srcAddr denom ≤ s.balance packet.srcAddr denom) ∧
    ∃ appended, Appended cdc s s' packet.destChain appended ∧
      ∀ denom, s.balance packet.srcAddr denom - s'.balance packet.srcAddr denom =
        appended.coins.denomTotal denom

/-- A transfer creates no coins exactly when no amount in its packet is negative. -/
theorem transfer_pays_iff (hvalid : msg.validateBasic = .ok ())
    (h : handleIBCTransferMsg cdc s msg = .ok s') :
    Pays cdc s s' msg.packet ↔ ∀ coin ∈ msg.packet.coins, 0 ≤ coin.amount := by
  have hloss : ∀ denom, s'.balance msg.packet.srcAddr denom =
      s.balance msg.packet.srcAddr denom - msg.packet.coins.denomTotal denom := by
    intro denom
    have hsubtract := denomTotal_subtractCoins (handleIBCTransferMsg_eq_ok h).1
      msg.packet.srcAddr denom
    rwa [if_pos rfl] at hsubtract
  constructor
  · rintro ⟨hgain, -⟩ coin hcoin
    have hamount := (sorted_of_validateBasic hvalid).denomTotal_eq hcoin
    have hle := hgain coin.denom
    rw [hloss, hamount] at hle
    omega
  · intro hamounts
    refine ⟨fun denom => ?_, msg.packet, (appended_iff h).mpr rfl, fun denom => ?_⟩
    · have hnonneg := Coins.denomTotal_nonneg hamounts denom
      rw [hloss]
      omega
    · rw [hloss]
      ring

/-- One account with ten atoms, and no packets. -/
def richState : State := ⟨setCoins ⟨∅, 0⟩ [1] [⟨"atom", 10⟩], ∅⟩

theorem transfer_pays_iff_example :
    ∃ s', handleIBCTransferMsg wireCodec richState ⟨packetFor [97]⟩ = .ok s' ∧
      Pays wireCodec richState s' (packetFor [97]) := by
  have hpasses : passes (fun _ => true)
      (handleIBCTransferMsg wireCodec richState ⟨packetFor [97]⟩) = true := by decide +kernel
  have hvalid : IBCTransferMsg.validateBasic ⟨packetFor [97]⟩ = .ok () := by decide +kernel
  obtain ⟨s', h, -⟩ := exists_of_passes hpasses
  exact ⟨s', h, (transfer_pays_iff hvalid h).mpr (by decide +kernel)⟩

/-- A packet of minus five photons. -/
def negativePacket : IBCPacket := { packetFor [97] with coins := [⟨"photon", -5⟩] }

/-- The sender of minus five photons, who had none, has five of them afterwards. -/
theorem transfer_creates_coins :
    IBCTransferMsg.validateBasic ⟨negativePacket⟩ = .ok () ∧
      ∃ s', handleIBCTransferMsg wireCodec richState ⟨negativePacket⟩ = .ok s' ∧
        richState.balance [1] "photon" = 0 ∧ s'.balance [1] "photon" = 5 := by
  have hpasses : passes (fun s' => decide (s'.balance [1] "photon" = 5))
      (handleIBCTransferMsg wireCodec richState ⟨negativePacket⟩) = true := by decide +kernel
  obtain ⟨s', h, htest⟩ := exists_of_passes hpasses
  exact ⟨by decide +kernel, s', h, by decide +kernel, of_decide_eq_true htest⟩

end Tepleton.Ibc
