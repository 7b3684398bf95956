import Tepleton.Ibc.Transfer

/-!
# Relaying packets between two chains: `x/ibc/client/cli/relay.go`

A relayer reads packet `i` of a queue on the source chain, puts it into a receive message with the
sequence number `i` and submits that to the destination chain.  Relayers work side by side, and what
they have built may arrive late, in any order and more than once, so a network is the two chains with
all messages that were ever built.

The destination counts what it has received under the source chain that *the packet* names, and nothing
on the source chain checks that name.

* `relay_delivers`: as long as the packets for the destination name the chain they are sent on, the
  destination has received exactly the first packets of the queue, as many as its counter says.
* `relay_stuck`: one packet that names a third chain is received but not counted.
-/

namespace Tepleton.Ibc

open Lib Auth Bank

variable (cdc : Codec)

/-! ## The network -/

/-- `relayCommander.refine`: the message for the stored bytes of a packet. -/
def refine (relayer : Address) (bz : Bytes) (sequence : ℤ) : Outcome IBCReceiveMsg :=
  match cdc.unmarshalPacket bz with
  | none => .error (.panic .cannotDecode)
  | some packet => .ok ⟨packet, relayer, sequence⟩

/-- One round of the inner loop of `relayCommander.loop`: packet `i` is queried and refined. -/
def relayPacket (store : Store) (toChainID : ChainID) (relayer : Address) (i : ℕ) :
    Outcome IBCReceiveMsg :=
  match store[egressKey toChainID i]? with
  | none => .error (.panic .cannotDecode)
  | some bz => refine cdc relayer bz i

/-- The two chains, and the messages that relayers have built so far. -/
structure Network where
  source : State
  dest : State
  built : List IBCReceiveMsg

/-- What can happen: a transfer on the source chain, a message built by a relayer, a message submitted
to the destination. -/
inductive Event
  | transfer (msg : IBCTransferMsg)
  | relay (relayer : Address) (i : ℕ)
  | submit (msg : IBCReceiveMsg)
  deriving DecidableEq, Repr

/-- A transaction that makes a transfer. -/
def transferTx (s : State) (msg : IBCTransferMsg) : Outcome State := do
  msg.validateBasic
  handleIBCTransferMsg cdc s msg

/-- A transaction that receives a packet. -/
def receiveTx (s : State) (msg : IBCReceiveMsg) : Outcome State := do
  msg.validateBasic
  handleIBCReceiveMsg cdc s msg

/-- A transaction that fails leaves the chain as it was. -/
def State.after (s : State) : Outcome State → State
  | .ok s' => s'
  | .error _ => s

/-- One event, with relayers that work from the source chain to `destID`. -/
def Network.step (destID : ChainID) (w : Network) : Event → Outcome Network
  | .transfer msg => .ok { w with source := w.source.after (transferTx cdc w.source msg) }
  | .relay relayer i => do
      let msg ← relayPacket cdc w.source.store destID relayer i
      return { w with built := msg :: w.built }
  | .submit msg => .ok { w with dest := w.dest.after (receiveTx cdc w.dest msg) }

/-- Transfers are of positive coins, relayers take packets below the length of the queue and submit
what they have built. -/
def Event.Allowed (destID : ChainID) (w : Network) : Event → Prop
  | .transfer msg => msg.packet.coins.isPositive = true
  | .relay _ i => Returns (fun result => (i : ℤ) < result.2) (getEgressLength cdc w.source.store destID)
  | .submit msg => msg ∈ w.built

instance (destID : ChainID) (w : Network) : ∀ event : Event, Decidable (event.Allowed cdc destID w)
  | .transfer _ => inferInstanceAs (Decidable (_ = true))
  | .relay _ _ => inferInstanceAs (Decidable (Returns _ _))
  | .submit msg => inferInstanceAs (Decidable (msg ∈ w.built))

/-- The packet that an event makes the destination receive. -/
def receivedBy : Network × Event → Option IBCPacket
  | (w, .submit msg) =>
    match receiveTx cdc w.dest msg with
    | .ok _ => some msg.packet
    | .error _ => none
  | _ => none

/-- The packets of the receives that succeeded, in order. -/
def receivedPackets (history : List (Network × Event)) : List IBCPacket :=
  history.filterMap (receivedBy cdc)

/-- What a received packet gives. -/
def IBCPacket.credit (packet : IBCPacket) : Output := ⟨packet.destAddr, packet.coins⟩

/-- What a sent packet takes. -/
def IBCPacket.debit (packet : IBCPacket) : Input := ⟨packet.srcAddr, packet.coins⟩

/-- The packets received are the first ones of the queue, as many as the counter of the destination
says, each was credited once and nothing else was, and no more has arrived than was sent. -/
def Delivered (srcID destID : ChainID) (start w : Network) (received : List IBCPacket) : Prop :=
  ∃ (queue : List IBCPacket) (k : ℕ), Faithful cdc w.source.store destID queue ∧
    (getIngressSequence cdc w.dest.store srcID).map Prod.snd = .ok (k : ℤ) ∧
    k ≤ queue.length ∧ received = queue.take k ∧
    Moved given (received.map IBCPacket.credit) start.dest.accounts w.dest.accounts ∧
    ∀ denom, supply denom w.dest.accounts - supply denom start.dest.accounts ≤
      supply denom start.source.accounts - supply denom w.source.accounts

/-- A transfer to the destination names the source chain and leaves room for its counter; one to
another chain does not use the key of a queued packet as a length key. -/
def Event.Orderly (srcID destID : ChainID) (w : Network) : Event → Prop
  | .transfer msg =>
    Returns (fun result =>
      if msg.packet.destChain = destID then msg.packet.srcChain = srcID ∧ result.2 + 1 < 2 ^ 63
      else ∀ i : ℕ, i < result.2.toNat → msg.packet.destChain ≠ numbered destID i)
      (getEgressLength cdc w.source.store destID)
  | _ => True

instance (srcID destID : ChainID) (w : Network) :
    ∀ event : Event, Decidable (event.Orderly cdc srcID destID w)
  | .transfer _ => inferInstanceAs (Decidable (Returns _ _))
  | .relay _ _ => .isTrue trivial
  | .submit _ => .isTrue trivial

/-! ## What one event does -/

variable {cdc} {srcID destID : ChainID}

variable {s' : State} {msg : IBCTransferMsg}

theorem transferTx_eq_ok {s : State} (h : transferTx cdc s msg = .ok s') :
    Moved taken [msg.packet.debit] s.accounts s'.accounts ∧
      postIBCPacket cdc s.store msg.packet = .ok s'.store := by
  rw [transferTx, bind_eq_ok] at h
  obtain ⟨-, -, h⟩ := h
  obtain ⟨hsubtract, hpost⟩ := handleIBCTransferMsg_eq_ok h
  exact ⟨moved_of_subtractCoins hsubtract, hpost⟩

theorem receiveTx_eq_ok {s : State} {msg : IBCReceiveMsg} (h : receiveTx cdc s msg = .ok s') :
    Moved given [msg.packet.credit] s.accounts s'.accounts ∧
      (getIngressSequence cdc s.store msg.packet.srcChain).map Prod.snd = .ok msg.sequence ∧
      ∃ store, s'.store =
        setIngressSequence cdc store msg.packet.srcChain (int64 (msg.sequence + 1)) := by
  simp only [receiveTx, handleIBCReceiveMsg, bind_eq_ok, Prod.exists] at h
  obtain ⟨-, -, store, seq, hcounter, h⟩ := h
  split_ifs at h with hsequence
  simp only [bind_eq_ok, pure_eq_ok] at h
  obtain ⟨accounts, hadd, rfl⟩ := h
  rw [not_not] at hsequence
  refine ⟨moved_of_addCoins hadd, ?_, store, by rw [hsequence]⟩
  rw [hcounter, hsequence]
  rfl

theorem getIngressSequence_set {store : Store} {n : ℤ} (hlow : -2 ^ 63 ≤ n) (hhigh : n < 2 ^ 63) :
    (getIngressSequence cdc (setIngressSequence cdc store srcID n) srcID).map Prod.snd = .ok n := by
  rw [getIngressSequence, readCounter, setIngressSequence, KVStore.getElem?_insert_self]
  simp only [cdc.unmarshal_marshalInt64 n hlow hhigh]
  rfl

theorem relayPacket_eq_ok {store : Store} {queue : List IBCPacket} {relayer : Address} {i : ℕ}
    {msg : IBCReceiveMsg} (hqueue : Faithful cdc store destID queue)
    (hi : Returns (fun result => (i : ℤ) < result.2) (getEgressLength cdc store destID))
    (h : relayPacket cdc store destID relayer i = .ok msg) :
    msg.sequence = i ∧ queue[i]? = some msg.packet := by
  obtain ⟨middle, hlength⟩ := hqueue.getEgressLength
  have hlt : i < queue.length := by simpa using hi.of_ok hlength
  have hstored := hqueue.stored i queue[i] (List.getElem?_eq_getElem hlt)
  rw [relayPacket, hstored] at h
  simp only [refine, cdc.unmarshal_marshalPacket] at h
  cases h
  exact ⟨rfl, List.getElem?_eq_getElem hlt⟩

/-! ## Delivery -/

/-- The packet that an event adds to a queue. -/
def sentBy (cdc : Codec) : Network × Event → Option IBCPacket
  | (w, .transfer msg) =>
    match transferTx cdc w.source msg with
    | .ok _ => some msg.packet
    | .error _ => none
  | _ => none

/-- The packets for one chain. -/
def packetsTo (destID : ChainID) (sent : List IBCPacket) : List IBCPacket :=
  sent.filter fun packet => packet.destChain = destID

theorem packetsTo_append (sent : List IBCPacket) (packet : IBCPacket) :
    packetsTo destID (sent ++ [packet]) =
      packetsTo destID sent ++ if packet.destChain = destID then [packet] else [] := by
  rw [packetsTo, List.filter_append]
  congr 1
  split_ifs with heq <;> simp [heq]

/-- How a network stands after packets were sent and received: the queue on the source chain is the
log of what was sent, all messages under way carry a packet of the queue with its number, and the
destination has taken packets from the front. -/
structure Carried (cdc : Codec) (srcID destID : ChainID) (start w : Network)
    (sent received : List IBCPacket) : Prop where
  queue : Faithful cdc w.source.store destID (packetsTo destID sent)
  room : ((packetsTo destID sent).length : ℤ) < 2 ^ 63
  named (packet : IBCPacket) (h : packet ∈ packetsTo destID sent) : packet.srcChain = srcID
  positive (packet : IBCPacket) (h : packet ∈ sent) : packet.coins.isPositive = true
  built (msg : IBCReceiveMsg) (h : msg ∈ w.built) :
    ∃ i : ℕ, msg.sequence = i ∧ (packetsTo destID sent)[i]? = some msg.packet
  counter : ∃ k : ℕ, (getIngressSequence cdc w.dest.store srcID).map Prod.snd = .ok (k : ℤ) ∧
    k ≤ (packetsTo destID sent).length ∧ received = (packetsTo destID sent).take k
  debited : Moved taken (sent.map IBCPacket.debit) start.source.accounts w.source.accounts
  credited : Moved given (received.map IBCPacket.credit) start.dest.accounts w.dest.accounts

variable {start w w' : Network} {sent received : List IBCPacket}

/-- The queue after one more packet was sent. -/
theorem Carried.queue_transfer (hid : 47 ∉ destID)
    (h : Carried cdc srcID destID start w sent received)
    (hguard : (Event.transfer msg).Orderly cdc srcID destID w)
    (hpost : postIBCPacket cdc w.source.store msg.packet = .ok s'.store) :
    Faithful cdc s'.store destID (packetsTo destID (sent ++ [msg.packet])) ∧
      ((packetsTo destID (sent ++ [msg.packet])).length : ℤ) < 2 ^ 63 ∧
      ∀ packet ∈ packetsTo destID (sent ++ [msg.packet]), packet.srcChain = srcID := by
  obtain ⟨middle, hlength⟩ := h.queue.getEgressLength
  have horderly := Returns.of_ok hguard hlength
  rw [packetsTo_append]
  split_ifs at horderly ⊢ with hdest
  · obtain ⟨hsrc, hroom⟩ := horderly
    subst hdest
    refine ⟨h.queue.post hroom hpost, by simpa using hroom, ?_⟩
    intro packet hpacket
    rcases List.mem_append.mp hpacket with hpacket | hpacket
    · exact h.named packet hpacket
    · rw [List.mem_singleton.mp hpacket]
      exact hsrc
  · rw [List.append_nil]
    refine ⟨h.queue.post_other hdest ⟨.intro ?_, .intro ?_⟩ hpost, h.room, h.named⟩
    · intro result hresult
      rw [hlength] at hresult
      cases hresult
      rwa [if_neg hdest]
    · rintro result - rfl
      exact hid (by simp [numbered])

theorem Carried.transfer (hid : 47 ∉ destID) (h : Carried cdc srcID destID start w sent received)
    (hpositive : msg.packet.coins.isPositive = true)
    (hguard : (Event.transfer msg).Orderly cdc srcID destID w)
    (hs : transferTx cdc w.source msg = .ok s') :
    Carried cdc srcID destID start { w with source := s' } (sent ++ [msg.packet]) received := by
  obtain ⟨hmoved, hpost⟩ := transferTx_eq_ok hs
  obtain ⟨hqueue, hroom, hnamed⟩ := h.queue_transfer hid hguard hpost
  -- the queue only grows at its end, so what was said about its packets stays true
  obtain ⟨added, hadded⟩ : ∃ added, packetsTo destID (sent ++ [msg.packet]) =
      packetsTo destID sent ++ added := ⟨_, packetsTo_append sent msg.packet⟩
  refine ⟨hqueue, hroom, hnamed, ?_, ?_, ?_, ?_, h.credited⟩
  · intro packet hpacket
    rcases List.mem_append.mp hpacket with hpacket | hpacket
    · exact h.positive packet hpacket
    · rw [List.mem_singleton.mp hpacket]
      exact hpositive
  · intro built hbuilt
    obtain ⟨i, hsequence, hi⟩ := h.built built hbuilt
    obtain ⟨hlt, -⟩ := List.getElem?_eq_some_iff.mp hi
    exact ⟨i, hsequence, by rw [hadded, List.getElem?_append_left hlt, hi]⟩
  · obtain ⟨k, hk, hle, hreceived⟩ := h.counter
    refine ⟨k, hk, by rw [hadded, List.length_append]; omega, ?_⟩
    rw [hadded, List.take_append_of_le_length hle, hreceived]
  · rw [List.map_append]
    exact h.debited.trans hmoved

theorem Carried.receive {msg : IBCReceiveMsg} (h : Carried cdc srcID destID start w sent received)
    (hbuilt : msg ∈ w.built) (hs : receiveTx cdc w.dest msg = .ok s') :
    Carried cdc srcID destID start { w with dest := s' } sent (received ++ [msg.packet]) := by
  obtain ⟨hmoved, hcounter, store, hstore⟩ := receiveTx_eq_ok hs
  obtain ⟨i, hsequence, hi⟩ := h.built msg hbuilt
  obtain ⟨hlt, -⟩ := List.getElem?_eq_some_iff.mp hi
  have hsrc : msg.packet.srcChain = srcID := h.named _ (List.mem_of_getElem? hi)
  obtain ⟨k, hk, hle, hreceived⟩ := h.counter
  have hik : i = k := by
    rw [hsrc, hk, hsequence] at hcounter
    have := Except.ok.inj hcounter
    omega
  subst hik
  have hroom := h.room
  refine ⟨h.queue, h.room, h.named, h.positive, h.built, ⟨i + 1, ?_, hlt, ?_⟩, h.debited, ?_⟩
  · rw [hstore, hsrc, hsequence, int64_eq_self (by omega) (by omega), Nat.cast_add, Nat.cast_one]
    exact getIngressSequence_set (by omega) (by omega)
  · rw [List.take_add_one, hi, hreceived]
    rfl
  · rw [List.map_append]
    exact h.credited.trans hmoved

theorem Carried.step {event : Event} (hid : 47 ∉ destID)
    (h : Carried cdc srcID destID start w sent received)
    (hallowed : event.Allowed cdc destID w) (hguard : event.Orderly cdc srcID destID w)
    (hstep : w.step cdc destID event = .ok w') :
    Carried cdc srcID destID start w' (sent ++ (sentBy cdc (w, event)).toList)
      (received ++ (receivedBy cdc (w, event)).toList) := by
  cases event with
  | transfer msg =>
    cases hstep
    cases hs : transferTx cdc w.source msg with
    | error fault => simpa [sentBy, receivedBy, hs, State.after] using h
    | ok s' =>
      simpa [sentBy, receivedBy, hs, State.after] using h.transfer hid hallowed hguard hs
  | relay relayer i =>
    rw [Network.step, bind_eq_ok] at hstep
    obtain ⟨msg, hmsg, hstep⟩ := hstep
    cases hstep
    have hbuilt := relayPacket_eq_ok h.queue hallowed hmsg
    simp only [sentBy, receivedBy, Option.toList_none, List.append_nil]
    refine { h with built := ?_ }
    intro other hother
    rcases List.mem_cons.mp hother with rfl | hother
    · exact ⟨i, hbuilt⟩
    · exact h.built other hother
  | submit msg =>
    cases hstep
    cases hs : receiveTx cdc w.dest msg with
    | error fault => simpa [sentBy, receivedBy, hs, State.after] using h
    | ok s' => simpa [sentBy, receivedBy, hs, State.after] using h.receive hallowed hs

/-- Nothing was sent to the destination yet, and nothing is under way. -/
structure Network.Quiet (cdc : Codec) (srcID destID : ChainID) (start : Network) : Prop where
  queue : Faithful cdc start.source.store destID []
  counter : (getIngressSequence cdc start.dest.store srcID).map Prod.snd = .ok 0
  built : start.built = []

theorem Network.Quiet.carried (h : start.Quiet cdc srcID destID) :
    Carried cdc srcID destID start start [] [] where
  queue := h.queue
  room := by norm_num [packetsTo]
  named _ hpacket := absurd hpacket List.not_mem_nil
  positive _ hpacket := absurd hpacket List.not_mem_nil
  built msg hmsg := absurd hmsg (by simp [h.built])
  counter := ⟨0, h.counter, Nat.zero_le _, rfl⟩
  debited := .nil _ _
  credited := .nil _ _

theorem Carried.bounded (h : Carried cdc srcID destID start w sent received) (denom : String) :
    supply denom w.dest.accounts - supply denom start.dest.accounts ≤
      supply denom start.source.accounts - supply denom w.source.accounts := by
  obtain ⟨k, -, -, hreceived⟩ := h.counter
  have hsublist : received.Sublist sent := by
    rw [hreceived]
    exact (List.take_sublist _ _).trans List.filter_sublist
  have hsum : (received.map fun packet => packet.coins.denomTotal denom).sum ≤
      (sent.map fun packet => packet.coins.denomTotal denom).sum := by
    refine (hsublist.map _).sum_le_sum ?_
    intro amount hamount
    obtain ⟨packet, hpacket, rfl⟩ := List.mem_map.mp hamount
    have hpositive := Coins.isPositive_iff.mp (h.positive packet hpacket)
    exact Coins.denomTotal_nonneg (fun coin hcoin => (hpositive.2 coin hcoin).le) denom
  have hgiven : ((received.map IBCPacket.credit).map (given · denom)).sum ≤
      ((sent.map IBCPacket.debit).map (given · denom)).sum := by
    rw [List.map_map, List.map_map]
    exact hsum
  rw [h.credited.supply, h.debited.supply, sum_taken]
  omega

/-- From a network in which nothing was sent yet, whatever happens on the two chains and between
them: if all transfers are orderly, the destination has at every moment received exactly the first
packets of the queue. -/
theorem relay_delivers (cdc : Codec) {srcID destID : ChainID} {start w : Network}
    {history : List (Network × Event)} (hid : 47 ∉ srcID ∧ 47 ∉ destID)
    (hstart : start.Quiet cdc srcID destID)
    (hrun : Run (Network.step cdc destID) start history w)
    (hallowed : Run.Meets (fun w event => event.Allowed cdc destID w) history)
    (hguard : Run.Meets (fun w event => event.Orderly cdc srcID destID w) history) :
    Delivered cdc srcID destID start w (receivedPackets cdc history) := by
  have hcarried : Carried cdc srcID destID start w (history.filterMap (sentBy cdc))
      (receivedPackets cdc history) := by
    induction hrun with
    | nil => exact hstart.carried
    | @snoc history w w' event hrun hstep ih =>
      rw [Run.meets_append] at hallowed hguard
      have hlast : ∀ f : Network × Event → Option IBCPacket,
          [(w, event)].filterMap f = (f (w, event)).toList := by
        intro f
        cases hf : f (w, event) <;> simp [hf]
      rw [receivedPackets, List.filterMap_append, List.filterMap_append, hlast, hlast]
      exact (ih hallowed.1 hguard.1).step hid.2 hallowed.2 hguard.2 hstep
  obtain ⟨k, hk, hle, hreceived⟩ := hcarried.counter
  exact ⟨_, k, hcarried.queue, hk, hle, hreceived, hcarried.credited, hcarried.bounded⟩

/-- A packet of five coins from the chain `a` to the chain `b`, if it is to be believed. -/
def packetFrom (srcChain : ChainID) : IBCPacket := { packetFor [98] with srcChain }

/-- The rich account on the source chain, and a destination with no accounts. -/
def quietNetwork : Network := ⟨richState, ⟨⟨∅, 0⟩, ∅⟩, []⟩

theorem quietNetwork_quiet : quietNetwork.Quiet wireCodec [97] [98] where
  queue := ⟨by decide +kernel, fun i packet h => by simp at h⟩
  counter := by decide +kernel
  built := rfl

/-- Two relayers build the message for the first of two packets, the second message overtakes it, and
all three are submitted. -/
theorem relay_delivers_twoRelayers :
    ∃ history w, Run (Network.step wireCodec [98]) quietNetwork history w ∧
      receivedPackets wireCodec history = [packetFrom [97], packetFrom [97]] ∧
      Delivered wireCodec [97] [98] quietNetwork w [packetFrom [97], packetFrom [97]] := by
  let first : IBCReceiveMsg := ⟨packetFrom [97], [7], 0⟩
  let again : IBCReceiveMsg := ⟨packetFrom [97], [8], 0⟩
  let second : IBCReceiveMsg := ⟨packetFrom [97], [7], 1⟩
  let events : List Event :=
    [.transfer ⟨packetFrom [97]⟩, .transfer ⟨packetFrom [97]⟩, .relay [7] 0, .relay [8] 0,
      .relay [7] 1, .submit second, .submit first, .submit again, .submit second]
  obtain ⟨w, hrun, -⟩ := Run.of_leadsTo (Network.step wireCodec [98]) quietNetwork events
    (fun _ => true) (by decide +kernel)
  have hreceived : receivedPackets wireCodec
      (Run.historyOf (Network.step wireCodec [98]) quietNetwork events) =
        [packetFrom [97], packetFrom [97]] := by decide +kernel
  have hdelivered := relay_delivers wireCodec (by decide) quietNetwork_quiet hrun
    (by decide +kernel) (by decide +kernel)
  rw [hreceived] at hdelivered
  exact ⟨_, w, hrun, hreceived, hdelivered⟩

/-- The first packet for `b` says that it comes from `c`.  It is received, but the counter for `a` stays
at zero. -/
theorem relay_stuck :
    ∃ history w, Run (Network.step wireCodec [98]) quietNetwork history w ∧
      quietNetwork.Quiet wireCodec [97] [98] ∧
      Run.Meets (fun w event => event.Allowed wireCodec [98] w) history ∧
      receivedPackets wireCodec history = [packetFrom [99]] ∧
      (getIngressSequence wireCodec w.dest.store [97]).map Prod.snd = .ok 0 ∧
      ¬ Delivered wireCodec [97] [98] quietNetwork w (receivedPackets wireCodec history) := by
  let events : List Event :=
    [.transfer ⟨packetFrom [99]⟩, .relay [7] 0, .submit ⟨packetFrom [99], [7], 0⟩]
  obtain ⟨w, hrun, htest⟩ := Run.of_leadsTo (Network.step wireCodec [98]) quietNetwork events
    (fun w => decide ((getIngressSequence wireCodec w.dest.store [97]).map Prod.snd = .ok 0))
    (by decide +kernel)
  have hreceived : receivedPackets wireCodec
      (Run.historyOf (Network.step wireCodec [98]) quietNetwork events) = [packetFrom [99]] := by
    decide +kernel
  have hcounter := of_decide_eq_true htest
  refine ⟨_, w, hrun, quietNetwork_quiet, by decide +kernel, hreceived, hcounter, ?_⟩
  rintro ⟨queue, k, -, hk, -, htake, -⟩
  rw [hcounter] at hk
  have hzero : k = 0 := by
    have := Except.ok.inj hk
    omega
  rw [hreceived, hzero, List.take_zero] at htake
  cases htake

end Tepleton.Ibc
