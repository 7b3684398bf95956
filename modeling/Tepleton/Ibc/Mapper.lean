import Tepleton.Types.Decimal
import Tepleton.Types.SortedCoins

/-!
# Egress queues: `x/ibc/mapper.go`

The packets sent to all chains and the lengths of their queues lie in one store, under keys that are
put together as text.  The key of packet `i` for the chain `c` is the length key of the chain
`c/i`; this is the only way in which two keys can meet (`egressKey_eq_egressLengthKey`).

`egress_faithful` follows one chain through a run: its queue is a faithful log as long as no packet
goes to a chain whose keys meet those in use.  `egress_overwritten` is a run of two packets in which
the second one destroys the queue of the first.
-/

namespace Tepleton.Ibc

open Lib

/-- A chain id: a Go string, which need not be text. -/
abbrev ChainID := Bytes

structure IBCPacket where
  srcAddr : Address
  destAddr : Address
  coins : Coins
  srcChain : ChainID
  destChain : ChainID
  deriving DecidableEq, Repr

/-- The codec, which reads back what it has written. -/
structure Codec where
  marshalPacket : IBCPacket → Bytes
  unmarshalPacket : Bytes → Option IBCPacket
  marshalInt64 : ℤ → Bytes
  unmarshalInt64 : Bytes → Option ℤ
  unmarshal_marshalPacket (packet : IBCPacket) :
    unmarshalPacket (marshalPacket packet) = some packet
  unmarshal_marshalInt64 (n : ℤ) (hlow : -2 ^ 63 ≤ n) (hhigh : n < 2 ^ 63) :
    unmarshalInt64 (marshalInt64 n) = some n

/-! ## Keys -/

/-- The text `egress/`. -/
def egressBytes : Bytes := [101, 103, 114, 101, 115, 115, 47]

/-- The text `ingress/`. -/
def ingressBytes : Bytes := [105, 110, 103, 114, 101, 115, 115, 47]

/-- The chain id followed by a slash and a number. -/
def numbered (chain : ChainID) (index : ℤ) : ChainID := chain ++ 47 :: formatInt index

def egressKey (destChain : ChainID) (index : ℤ) : Bytes := egressBytes ++ numbered destChain index

def egressLengthKey (destChain : ChainID) : Bytes := egressBytes ++ destChain

def ingressSequenceKey (srcChain : ChainID) : Bytes := ingressBytes ++ srcChain

variable {chain chain' : ChainID} {index : ℤ} {packets : List IBCPacket}

theorem numbered_inj {index' : ℤ} :
    numbered chain index = numbered chain' index' ↔ chain = chain' ∧ index = index' :=
  append_slash_formatInt_inj

theorem numbered_ne_self (chain : ChainID) (index : ℤ) : numbered chain index ≠ chain := by
  intro h
  have hlength := congrArg List.length h
  simp [numbered] at hlength

theorem egressLengthKey_inj : egressLengthKey chain = egressLengthKey chain' ↔ chain = chain' :=
  List.append_right_inj _

theorem egressKey_inj {index' : ℤ} :
    egressKey chain index = egressKey chain' index' ↔ chain = chain' ∧ index = index' :=
  (List.append_right_inj _).trans numbered_inj

theorem egressKey_eq_egressLengthKey :
    egressKey chain index = egressLengthKey chain' ↔ chain' = numbered chain index :=
  (List.append_right_inj _).trans eq_comm

/-! ## The mapper -/

/-- The store of the module. -/
abbrev Store := KVStore Bytes Bytes

variable (cdc : Codec)

/-- A counter that is written as zero when it is read for the first time: the code of
`getEgressLength` and `GetIngressSequence` with the key. -/
def readCounter (store : Store) (key : Bytes) : Outcome (Store × ℤ) :=
  match store[key]? with
  | none => .ok (store.insert key (cdc.marshalInt64 0), 0)
  | some bz =>
    match cdc.unmarshalInt64 bz with
    | none => .error (.panic .cannotDecode)
    | some res => .ok (store, res)

def getEgressLength (store : Store) (destChain : ChainID) : Outcome (Store × ℤ) :=
  readCounter cdc store (egressLengthKey destChain)

def getIngressSequence (store : Store) (srcChain : ChainID) : Outcome (Store × ℤ) :=
  readCounter cdc store (ingressSequenceKey srcChain)

def setIngressSequence (store : Store) (srcChain : ChainID) (sequence : ℤ) : Store :=
  store.insert (ingressSequenceKey srcChain) (cdc.marshalInt64 sequence)

def postIBCPacket (store : Store) (packet : IBCPacket) : Outcome Store := do
  let (store, index) ← getEgressLength cdc store packet.destChain
  let store := store.insert (egressKey packet.destChain index) (cdc.marshalPacket packet)
  return store.insert (egressLengthKey packet.destChain) (cdc.marshalInt64 (int64 (index + 1)))

variable {cdc} {store store' : Store} {chain : ChainID} {packet : IBCPacket}

theorem getEgressLength_frame {n : ℤ} (h : getEgressLength cdc store chain = .ok (store', n))
    {key : Bytes} (hkey : egressLengthKey chain ≠ key) : store'[key]? = store[key]? := by
  rw [getEgressLength, readCounter] at h
  split at h
  · cases h
    exact KVStore.getElem?_insert_of_ne _ _ hkey
  · split at h
    · cases h
    · cases h
      rfl

theorem postIBCPacket_eq_ok (h : postIBCPacket cdc store packet = .ok store') :
    ∃ middle index, getEgressLength cdc store packet.destChain = .ok (middle, index) ∧
      store' = (middle.insert (egressKey packet.destChain index) (cdc.marshalPacket packet)).insert
        (egressLengthKey packet.destChain) (cdc.marshalInt64 (int64 (index + 1))) := by
  rw [postIBCPacket, bind_eq_ok] at h
  obtain ⟨⟨middle, index⟩, hlength, h⟩ := h
  rw [pure_eq_ok] at h
  exact ⟨middle, index, hlength, h.symm⟩

theorem postIBCPacket_frame {middle : Store}
    (hlength : getEgressLength cdc store packet.destChain = .ok (middle, index))
    (h : postIBCPacket cdc store packet = .ok store') {key : Bytes}
    (hlengthKey : egressLengthKey packet.destChain ≠ key)
    (hkey : egressKey packet.destChain index ≠ key) : store'[key]? = store[key]? := by
  obtain ⟨middle', index', hlength', rfl⟩ := postIBCPacket_eq_ok h
  rw [hlength] at hlength'
  cases hlength'
  rw [KVStore.getElem?_insert_of_ne _ _ hlengthKey, KVStore.getElem?_insert_of_ne _ _ hkey,
    getEgressLength_frame hlength hlengthKey]

theorem postIBCPacket_stored {middle : Store}
    (hlength : getEgressLength cdc store packet.destChain = .ok (middle, index))
    (h : postIBCPacket cdc store packet = .ok store') :
    store'[egressKey packet.destChain index]? = some (cdc.marshalPacket packet) := by
  obtain ⟨middle', index', hlength', rfl⟩ := postIBCPacket_eq_ok h
  rw [hlength] at hlength'
  cases hlength'
  have hne : egressLengthKey packet.destChain ≠ egressKey packet.destChain index := by
    intro heq
    exact numbered_ne_self _ _ (egressKey_eq_egressLengthKey.mp heq.symm).symm
  rw [KVStore.getElem?_insert_of_ne _ _ hne, KVStore.getElem?_insert_self]

theorem getEgressLength_congr {n : ℤ} (h : getEgressLength cdc store chain = .ok (store', n))
    {other : Store} (hsame : other[egressLengthKey chain]? = store[egressLengthKey chain]?) :
    ∃ other', getEgressLength cdc other chain = .ok (other', n) := by
  rw [getEgressLength, readCounter] at h ⊢
  rw [hsame]
  cases hentry : store[egressLengthKey chain]? with
  | none =>
    simp only [hentry] at h
    cases h
    exact ⟨_, rfl⟩
  | some bz =>
    simp only [hentry] at h
    cases hdecode : cdc.unmarshalInt64 bz with
    | none =>
      simp only [hdecode] at h
      cases h
    | some res =>
      simp only [hdecode] at h ⊢
      cases h
      exact ⟨_, rfl⟩

/-! ## Faithful logs -/

/-- The packets posted to a chain, in order. -/
def posted (chain : ChainID) (history : List (Store × IBCPacket)) : List IBCPacket :=
  (history.map Prod.snd).filter fun packet => packet.destChain = chain

/-- The queue of a chain holds exactly these packets. -/
structure Faithful (cdc : Codec) (store : Store) (chain : ChainID) (packets : List IBCPacket) :
    Prop where
  length : (getEgressLength cdc store chain).map Prod.snd = .ok (packets.length : ℤ)
  stored (i : ℕ) (packet : IBCPacket) (h : packets[i]? = some packet) :
    store[egressKey chain i]? = some (cdc.marshalPacket packet)

/-- A packet that does not get in the way of a chain's queue.  If it goes to the chain itself, the new
length is an `int64`; if it goes to another one, that chain's length key is not the key of a packet
in the queue, and the packet's own key is not the length key of the queue. -/
def KeepsClear (cdc : Codec) (chain : ChainID) (store : Store) (packet : IBCPacket) : Prop :=
  Returns (fun result =>
    if packet.destChain = chain then result.2 + 1 < 2 ^ 63
    else ∀ i : ℕ, i < result.2.toNat → packet.destChain ≠ numbered chain i)
      (getEgressLength cdc store chain) ∧
  Returns (fun result => chain ≠ numbered packet.destChain result.2)
    (getEgressLength cdc store packet.destChain)

instance (cdc : Codec) (chain : ChainID) (store : Store) (packet : IBCPacket) :
    Decidable (KeepsClear cdc chain store packet) :=
  inferInstanceAs (Decidable (_ ∧ _))

theorem Faithful.getEgressLength (h : Faithful cdc store chain packets) :
    ∃ middle, getEgressLength cdc store chain = .ok (middle, (packets.length : ℤ)) := by
  have hlength := h.length
  cases hresult : Ibc.getEgressLength cdc store chain with
  | error fault =>
    rw [hresult] at hlength
    cases hlength
  | ok result =>
    rw [hresult] at hlength
    exact ⟨result.1, by rw [← Except.ok.inj hlength]⟩

theorem faithful_of_getEgressLength
    (hlength : getEgressLength cdc store chain = .ok (store', (packets.length : ℤ)))
    (hstored : ∀ (i : ℕ) (packet : IBCPacket), packets[i]? = some packet →
      store[egressKey chain i]? = some (cdc.marshalPacket packet)) :
    Faithful cdc store chain packets :=
  ⟨by rw [hlength]; rfl, hstored⟩

/-- A packet for the chain itself is put at the end of its queue. -/
theorem Faithful.post (hf : Faithful cdc store packet.destChain packets)
    (hroom : (packets.length : ℤ) + 1 < 2 ^ 63) (h : postIBCPacket cdc store packet = .ok store') :
    Faithful cdc store' packet.destChain (packets ++ [packet]) := by
  obtain ⟨middle, hlength⟩ := hf.getEgressLength
  have hnew : Ibc.getEgressLength cdc store' packet.destChain =
      .ok (store', ((packets ++ [packet]).length : ℤ)) := by
    obtain ⟨middle', index, hlength', rfl⟩ := postIBCPacket_eq_ok h
    rw [hlength] at hlength'
    cases hlength'
    rw [Ibc.getEgressLength, readCounter, KVStore.getElem?_insert_self,
      int64_eq_self (by omega) hroom]
    simp only [cdc.unmarshal_marshalInt64 _ (by omega : -2 ^ 63 ≤ (packets.length : ℤ) + 1) hroom]
    simp
  refine faithful_of_getEgressLength hnew ?_
  intro i stored hstored
  rcases Nat.lt_trichotomy i packets.length with hlt | heq | hgt
  · rw [List.getElem?_append_left hlt] at hstored
    rw [← hf.stored i stored hstored]
    apply postIBCPacket_frame hlength h
    · intro heq
      exact numbered_ne_self _ _ (egressKey_eq_egressLengthKey.mp heq.symm).symm
    · intro heq
      have hindex := (egressKey_inj.mp heq).2
      omega
  · subst heq
    rw [List.getElem?_concat_length] at hstored
    cases hstored
    exact postIBCPacket_stored hlength h
  · rw [List.getElem?_eq_none (by simp; omega)] at hstored
    cases hstored

/-- A packet for another chain that keeps clear changes nothing of the queue. -/
theorem Faithful.post_other (hf : Faithful cdc store chain packets) (hne : packet.destChain ≠ chain)
    (hclear : KeepsClear cdc chain store packet) (h : postIBCPacket cdc store packet = .ok store') :
    Faithful cdc store' chain packets := by
  obtain ⟨middle, hlength⟩ := hf.getEgressLength
  obtain ⟨middle', index, hindex, -⟩ := postIBCPacket_eq_ok h
  have hpackets := hclear.1.of_ok hlength
  rw [if_neg hne] at hpackets
  have hcounter : chain ≠ numbered packet.destChain index := hclear.2.of_ok hindex
  have hsame : store'[egressLengthKey chain]? = store[egressLengthKey chain]? := by
    apply postIBCPacket_frame hindex h
    · exact fun heq => hne (egressLengthKey_inj.mp heq)
    · exact fun heq => hcounter (egressKey_eq_egressLengthKey.mp heq)
  obtain ⟨after, hafter⟩ := getEgressLength_congr hlength hsame
  refine faithful_of_getEgressLength hafter ?_
  intro i stored hstored
  rw [← hf.stored i stored hstored]
  apply postIBCPacket_frame hindex h
  · intro heq
    obtain ⟨hi, -⟩ := List.getElem?_eq_some_iff.mp hstored
    exact hpackets i (by simpa using hi) (egressKey_eq_egressLengthKey.mp heq.symm)
  · exact fun heq => hne (egressKey_inj.mp heq).1

theorem posted_append (history : List (Store × IBCPacket)) :
    posted chain (history ++ [(store, packet)]) =
      posted chain history ++ if packet.destChain = chain then [packet] else [] := by
  simp only [posted, List.map_append, List.map_cons, List.map_nil, List.filter_append]
  congr 1
  split_ifs with heq <;> simp [heq]

/-- In a run of posts that all keep clear of a chain, its queue is the log of what was posted to it. -/
theorem egress_faithful (cdc : Codec) (chain : ChainID) {history : List (Store × IBCPacket)}
    {store : Store} (hrun : Run (postIBCPacket cdc) ∅ history store)
    (hclear : Run.Meets (KeepsClear cdc chain) history) :
    Faithful cdc store chain (posted chain history) := by
  induction hrun with
  | nil =>
    refine ⟨?_, fun i packet h => by simp [posted] at h⟩
    rw [getEgressLength, readCounter, KVStore.getElem?_empty]
    rfl
  | @snoc history store store' packet hrun hpost ih =>
    rw [Run.meets_append] at hclear
    have hf := ih hclear.1
    rw [posted_append]
    split_ifs with heq
    · subst heq
      obtain ⟨middle, hlength⟩ := hf.getEgressLength
      have hroom := hclear.2.1.of_ok hlength
      rw [if_pos rfl] at hroom
      exact hf.post hroom hpost
    · rw [List.append_nil]
      exact hf.post_other heq hclear.2 hpost

/-! ## A codec -/

/-- Packets field by field. -/
def packetWire : Wire IBCPacket :=
  let bytes := Wire.byte.list
  (bytes.pair (bytes.pair (Coin.wire.list.pair (bytes.pair bytes)))).retract
    (fun packet =>
      (packet.srcAddr, packet.destAddr, packet.coins, packet.srcChain, packet.destChain))
    (fun fields => ⟨fields.1, fields.2.1, fields.2.2.1, fields.2.2.2.1, fields.2.2.2.2⟩) fun _ => rfl

/-- A codec made of self-delimiting encodings. -/
def wireCodec : Codec where
  marshalPacket := packetWire.put
  unmarshalPacket := packetWire.decode
  marshalInt64 := Wire.int.put
  unmarshalInt64 := Wire.int.decode
  unmarshal_marshalPacket := packetWire.decode_put
  unmarshal_marshalInt64 n _ _ := Wire.int.decode_put n

/-- A packet of five coins for a chain. -/
def packetFor (destChain : ChainID) : IBCPacket where
  srcAddr := [1]
  destAddr := [2]
  coins := [⟨"atom", 5⟩]
  srcChain := [120]
  destChain := destChain

/-- Packets for the chains `a`, `b`, `a`. -/
theorem egress_faithful_example :
    ∃ history store, Run (postIBCPacket wireCodec) ∅ history store ∧
      posted [97] history = [packetFor [97], packetFor [97]] ∧
      Faithful wireCodec store [97] [packetFor [97], packetFor [97]] := by
  let packets := [packetFor [97], packetFor [98], packetFor [97]]
  obtain ⟨store, hrun, -⟩ := Run.of_leadsTo (postIBCPacket wireCodec) ∅ packets (fun _ => true)
    (by decide +kernel)
  have hposted : posted [97] (Run.historyOf (postIBCPacket wireCodec) ∅ packets) =
      [packetFor [97], packetFor [97]] := by decide +kernel
  have hfaithful := egress_faithful wireCodec [97] hrun (by decide +kernel)
  rw [hposted] at hfaithful
  exact ⟨_, store, hrun, hposted, hfaithful⟩

/-- A packet for the chain `a` overwrites the length of the queue of the chain `a/0`, whose packet can
no longer be found. -/
theorem egress_overwritten :
    ∃ history store, Run (postIBCPacket wireCodec) ∅ history store ∧
      history.map Prod.snd = [packetFor [97, 47, 48], packetFor [97]] ∧
      ¬ Faithful wireCodec store [97, 47, 48] (posted [97, 47, 48] history) := by
  let packets := [packetFor [97, 47, 48], packetFor [97]]
  obtain ⟨store, hrun, htest⟩ := Run.of_leadsTo (postIBCPacket wireCodec) ∅ packets
    (fun store => decide ((getEgressLength wireCodec store [97, 47, 48]).map Prod.snd ≠ .ok 1))
    (by decide +kernel)
  have hposted : posted [97, 47, 48] (Run.historyOf (postIBCPacket wireCodec) ∅ packets) =
      [packetFor [97, 47, 48]] := by decide +kernel
  refine ⟨_, store, hrun, by decide +kernel, ?_⟩
  rw [hposted]
  exact fun hfaithful => of_decide_eq_true htest hfaithful.length

end Tepleton.Ibc
