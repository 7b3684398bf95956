import Tepleton.Stake.Keeper.Delegation
import Tepleton.Store.Prefix

/-!
# Unbonding delegations and redelegations in the key-value store

Elsewhere the staking store has one map per kind of record.  Here it is one store of bytes, as
`x/stake/keeper/delegation.go` and `key.go` use it: a record is stored under a key made of
addresses, and one or two index entries, whose keys have the addresses in another order, hold that
key.

All keys of the five kinds are a tag, the length of the first address as amino encodes it, and some
addresses one after the other (`fieldKey`).  Addresses have 20 bytes, so a key determines its tag
and its addresses, and begins with another one exactly if its addresses do (`fieldKey_prefix_iff`).
What is stored under these keys is then a function of the records (`entryAt`), which `Represents`
says and every call keeps.
-/

namespace Tepleton.Stake.Raw

open Lib
open Tepleton.Store (IteratorPanic InDomain prefixEndBytes exists_prefixEndBytes
  inDomain_prefixEnd_iff)

/-! ## The code -/

/-- `MarshalBinary` and `UnmarshalBinary` for one type. -/
structure BinaryCodec (α : Type) where
  marshalBinary : α → Bytes
  unmarshalBinary : Bytes → Option α
  unmarshal_marshal (a : α) : unmarshalBinary (marshalBinary a) = some a

/-- What the keeper uses of its codec.  An address is encoded as its length and its bytes. -/
structure Codec where
  lengthBytes : ℕ → Bytes
  unbondingDelegation : BinaryCodec UnbondingDelegation
  redelegation : BinaryCodec Redelegation

/-- The encoding of an address. -/
def Codec.marshalAddress (cdc : Codec) (addr : Address) : Bytes :=
  cdc.lengthBytes addr.length ++ addr

/-- The calls of `panic` in the accessors. -/
inductive RawPanic
  | iterator (panic : IteratorPanic)
  | unmarshalBinary
  deriving DecidableEq, Repr

section Keys

variable (cdc : Codec)

def getUBDsKey (delegatorAddr : Address) : Bytes := 0x0B :: cdc.marshalAddress delegatorAddr

def getUBDKey (delegatorAddr validatorAddr : Address) : Bytes :=
  getUBDsKey cdc delegatorAddr ++ validatorAddr

def getUBDsByValIndexKey (validatorAddr : Address) : Bytes :=
  0x0C :: cdc.marshalAddress validatorAddr

def getUBDByValIndexKey (delegatorAddr validatorAddr : Address) : Bytes :=
  getUBDsByValIndexKey cdc validatorAddr ++ delegatorAddr

def getREDsKey (delegatorAddr : Address) : Bytes := 0x0D :: cdc.marshalAddress delegatorAddr

def getREDKey (delegatorAddr validatorSrcAddr validatorDstAddr : Address) : Bytes :=
  getREDsKey cdc delegatorAddr ++ (validatorSrcAddr ++ validatorDstAddr)

def getREDsFromValSrcIndexKey (validatorSrcAddr : Address) : Bytes :=
  0x0E :: cdc.marshalAddress validatorSrcAddr

def getREDByValSrcIndexKey (delegatorAddr validatorSrcAddr validatorDstAddr : Address) : Bytes :=
  getREDsFromValSrcIndexKey cdc validatorSrcAddr ++ (delegatorAddr ++ validatorDstAddr)

def getREDsToValDstIndexKey (validatorDstAddr : Address) : Bytes :=
  0x0F :: cdc.marshalAddress validatorDstAddr

def getREDByValDstIndexKey (delegatorAddr validatorSrcAddr validatorDstAddr : Address) : Bytes :=
  getREDsToValDstIndexKey cdc validatorDstAddr ++ (delegatorAddr ++ validatorSrcAddr)

def getREDsByDelToValDstIndexKey (delegatorAddr validatorDstAddr : Address) : Bytes :=
  getREDsToValDstIndexKey cdc validatorDstAddr ++ delegatorAddr

end Keys

/-- A store of bytes. -/
abbrev RawStore := KVStore Bytes Bytes

/-- The pairs that the loop over `KVStorePrefixIterator` sees. -/
def kvStorePrefixIterator (raw : RawStore) (pre : Bytes) : Except RawPanic (List (Bytes × Bytes)) :=
  match prefixEndBytes (some pre) with
  | .error panic => .error (.iterator panic)
  | .ok stop => .ok (raw.toList.filter fun pair => InDomain (some pre) stop pair.1)

/-- `MustUnmarshalBinary` of what a `Get` returns. -/
def mustUnmarshalBinary {α : Type} (codec : BinaryCodec α) (bz : Option Bytes) :
    Except RawPanic α :=
  match bz.bind codec.unmarshalBinary with
  | none => .error .unmarshalBinary
  | some a => .ok a

/-- The loop of the two `…FromValidator` functions: the records whose keys the entries hold. -/
def recordsBehind {α : Type} (codec : BinaryCodec α) (raw : RawStore) (pre : Bytes) :
    Except RawPanic (List α) := do
  let entries ← kvStorePrefixIterator raw pre
  entries.mapM fun entry => mustUnmarshalBinary codec raw[entry.2]?

section Accessors

variable (cdc : Codec) (raw : RawStore)

def getUnbondingDelegation (delegatorAddr validatorAddr : Address) :
    Except RawPanic (Option UnbondingDelegation) :=
  match raw[getUBDKey cdc delegatorAddr validatorAddr]? with
  | none => .ok none
  | some bz => do
      let ubd ← mustUnmarshalBinary cdc.unbondingDelegation (some bz)
      return some ubd

def getUnbondingDelegationsFromValidator (valAddr : Address) :
    Except RawPanic (List UnbondingDelegation) :=
  recordsBehind cdc.unbondingDelegation raw (getUBDsByValIndexKey cdc valAddr)

def setUnbondingDelegation (ubd : UnbondingDelegation) : RawStore :=
  let bz := cdc.unbondingDelegation.marshalBinary ubd
  let ubdKey := getUBDKey cdc ubd.delegatorAddr ubd.validatorAddr
  (raw.insert ubdKey bz).insert (getUBDByValIndexKey cdc ubd.delegatorAddr ubd.validatorAddr) ubdKey

def removeUnbondingDelegation (ubd : UnbondingDelegation) : RawStore :=
  (raw.erase (getUBDKey cdc ubd.delegatorAddr ubd.validatorAddr)).erase
    (getUBDByValIndexKey cdc ubd.delegatorAddr ubd.validatorAddr)

def getRedelegation (delegatorAddr validatorSrcAddr validatorDstAddr : Address) :
    Except RawPanic (Option Redelegation) :=
  match raw[getREDKey cdc delegatorAddr validatorSrcAddr validatorDstAddr]? with
  | none => .ok none
  | some bz => do
      let red ← mustUnmarshalBinary cdc.redelegation (some bz)
      return some red

def getRedelegationsFromValidator (valAddr : Address) : Except RawPanic (List Redelegation) :=
  recordsBehind cdc.redelegation raw (getREDsFromValSrcIndexKey cdc valAddr)

def hasReceivingRedelegation (delegatorAddr validatorDstAddr : Address) : Except RawPanic Bool := do
  let entries ←
    kvStorePrefixIterator raw (getREDsByDelToValDstIndexKey cdc delegatorAddr validatorDstAddr)
  return !entries.isEmpty

def setRedelegation (red : Redelegation) : RawStore :=
  let bz := cdc.redelegation.marshalBinary red
  let redKey := getREDKey cdc red.delegatorAddr red.validatorSrcAddr red.validatorDstAddr
  ((raw.insert redKey bz).insert
    (getREDByValSrcIndexKey cdc red.delegatorAddr red.validatorSrcAddr red.validatorDstAddr)
      redKey).insert
    (getREDByValDstIndexKey cdc red.delegatorAddr red.validatorSrcAddr red.validatorDstAddr) redKey

def removeRedelegation (red : Redelegation) : RawStore :=
  ((raw.erase
    (getREDKey cdc red.delegatorAddr red.validatorSrcAddr red.validatorDstAddr)).erase
    (getREDByValSrcIndexKey cdc red.delegatorAddr red.validatorSrcAddr red.validatorDstAddr)).erase
    (getREDByValDstIndexKey cdc red.delegatorAddr red.validatorSrcAddr red.validatorDstAddr)

end Accessors

/-! ## Keys as lists of addresses -/

/-- The five kinds of keys. -/
inductive Family
  | ubd
  | ubdByVal
  | red
  | redByValSrc
  | redByValDst
  deriving DecidableEq

/-- The first byte of the keys of a kind. -/
def Family.tag : Family → Byte
  | .ubd => 0x0B
  | .ubdByVal => 0x0C
  | .red => 0x0D
  | .redByValSrc => 0x0E
  | .redByValDst => 0x0F

theorem Family.tag_inj {f g : Family} : f.tag = g.tag ↔ f = g := by
  cases f <;> cases g <;> decide

/-- `sdk.Address`es have 20 bytes. -/
def Addresses (fields : List Address) : Prop := ∀ addr ∈ fields, addr.length = 20

/-- A key of a kind, made of addresses. -/
def fieldKey (cdc : Codec) (family : Family) (fields : List Address) : Bytes :=
  family.tag :: (cdc.lengthBytes 20 ++ fields.flatten)

theorem append_prefix_append_iff {a a' b b' : Bytes} (hlength : a.length = a'.length) :
    a ++ b <+: a' ++ b' ↔ a = a' ∧ b <+: b' := by
  constructor
  · rintro ⟨tail, heq⟩
    rw [List.append_assoc] at heq
    obtain ⟨rfl, hrest⟩ := List.append_inj heq hlength
    exact ⟨rfl, tail, hrest⟩
  · rintro ⟨rfl, hprefix⟩
    exact (List.prefix_append_right_inj a).mpr hprefix

theorem flatten_prefix_iff {fields fields' : List Address} (h : Addresses fields)
    (h' : Addresses fields') : fields.flatten <+: fields'.flatten ↔ fields <+: fields' := by
  induction fields generalizing fields' with
  | nil => simp
  | cons addr fields ih =>
    have hlength : addr.length = 20 := h addr (by simp)
    cases fields' with
    | nil =>
      have hne : addr ≠ [] := by
        rintro rfl
        cases hlength
      simp [hne]
    | cons addr' fields' =>
      have hlength' : addr'.length = 20 := h' addr' (by simp)
      have hrest := @ih fields' (fun a ha => h a (by simp [ha])) fun a ha => h' a (by simp [ha])
      rw [List.flatten_cons, List.flatten_cons, List.cons_prefix_cons, ← hrest]
      exact append_prefix_append_iff (hlength.trans hlength'.symm)

section FieldKey

variable {cdc : Codec} {family family' : Family} {fields fields' : List Address}

theorem fieldKey_prefix_iff (h : Addresses fields) (h' : Addresses fields') :
    fieldKey cdc family fields <+: fieldKey cdc family' fields' ↔
      family = family' ∧ fields <+: fields' := by
  rw [fieldKey, fieldKey, List.cons_prefix_cons, Family.tag_inj, List.prefix_append_right_inj,
    flatten_prefix_iff h h']

theorem fieldKey_inj (h : Addresses fields) (h' : Addresses fields') :
    fieldKey cdc family fields = fieldKey cdc family' fields' ↔
      family = family' ∧ fields = fields' := by
  constructor
  · intro heq
    obtain ⟨hfamily, hprefix⟩ := (fieldKey_prefix_iff h h').mp (by rw [heq])
    obtain ⟨-, hprefix'⟩ := (fieldKey_prefix_iff h' h).mp (by rw [heq])
    exact ⟨hfamily, hprefix.eq_of_length_le hprefix'.length_le⟩
  · rintro ⟨rfl, rfl⟩
    rfl

end FieldKey

section Fields

variable (cdc : Codec) {d v w : Address}

theorem getUBDKey_eq (hd : d.length = 20) : getUBDKey cdc d v = fieldKey cdc .ubd [d, v] := by
  simp [getUBDKey, getUBDsKey, Codec.marshalAddress, fieldKey, Family.tag, hd]

theorem getUBDByValIndexKey_eq (hv : v.length = 20) :
    getUBDByValIndexKey cdc d v = fieldKey cdc .ubdByVal [v, d] := by
  simp [getUBDByValIndexKey, getUBDsByValIndexKey, Codec.marshalAddress, fieldKey, Family.tag, hv]

theorem getUBDsByValIndexKey_eq (hv : v.length = 20) :
    getUBDsByValIndexKey cdc v = fieldKey cdc .ubdByVal [v] := by
  simp [getUBDsByValIndexKey, Codec.marshalAddress, fieldKey, Family.tag, hv]

theorem getREDKey_eq (hd : d.length = 20) : getREDKey cdc d v w = fieldKey cdc .red [d, v, w] := by
  simp [getREDKey, getREDsKey, Codec.marshalAddress, fieldKey, Family.tag, hd]

theorem getREDByValSrcIndexKey_eq (hv : v.length = 20) :
    getREDByValSrcIndexKey cdc d v w = fieldKey cdc .redByValSrc [v, d, w] := by
  simp [getREDByValSrcIndexKey, getREDsFromValSrcIndexKey, Codec.marshalAddress, fieldKey,
    Family.tag, hv]

theorem getREDsFromValSrcIndexKey_eq (hv : v.length = 20) :
    getREDsFromValSrcIndexKey cdc v = fieldKey cdc .redByValSrc [v] := by
  simp [getREDsFromValSrcIndexKey, Codec.marshalAddress, fieldKey, Family.tag, hv]

theorem getREDByValDstIndexKey_eq (hw : w.length = 20) :
    getREDByValDstIndexKey cdc d v w = fieldKey cdc .redByValDst [w, d, v] := by
  simp [getREDByValDstIndexKey, getREDsToValDstIndexKey, Codec.marshalAddress, fieldKey,
    Family.tag, hw]

theorem getREDsByDelToValDstIndexKey_eq (hw : w.length = 20) :
    getREDsByDelToValDstIndexKey cdc d w = fieldKey cdc .redByValDst [w, d] := by
  simp [getREDsByDelToValDstIndexKey, getREDsToValDstIndexKey, Codec.marshalAddress, fieldKey,
    Family.tag, hw]

end Fields

/-! ## What the records say is stored -/

/-- What is stored under a key, by the records of the maps. -/
def entryAt (cdc : Codec) (s : Store) : Family → List Address → Option Bytes
  | .ubd, [d, v] =>
    (s.getUnbondingDelegation d v).map cdc.unbondingDelegation.marshalBinary
  | .ubdByVal, [v, d] =>
    (s.getUnbondingDelegation d v).map fun _ => fieldKey cdc .ubd [d, v]
  | .red, [d, v, w] => (s.getRedelegation d v w).map cdc.redelegation.marshalBinary
  | .redByValSrc, [v, d, w] => (s.getRedelegation d v w).map fun _ => fieldKey cdc .red [d, v, w]
  | .redByValDst, [w, d, v] => (s.getRedelegation d v w).map fun _ => fieldKey cdc .red [d, v, w]
  | _, _ => none

section EntryAt

variable {cdc : Codec} {s : Store} {fields : List Address} {value : Bytes}

theorem entryAt_ubdByVal_eq_some :
    entryAt cdc s .ubdByVal fields = some value ↔
      ∃ d v ubd, fields = [v, d] ∧ s.getUnbondingDelegation d v = some ubd ∧
        value = fieldKey cdc .ubd [d, v] := by
  rcases fields with _ | ⟨v, _ | ⟨d, _ | _⟩⟩ <;>
    grind [entryAt, Option.map_eq_some_iff]

theorem entryAt_redByValSrc_eq_some :
    entryAt cdc s .redByValSrc fields = some value ↔
      ∃ d v w red, fields = [v, d, w] ∧ s.getRedelegation d v w = some red ∧
        value = fieldKey cdc .red [d, v, w] := by
  rcases fields with _ | ⟨v, _ | ⟨d, _ | ⟨w, _ | _⟩⟩⟩ <;>
    grind [entryAt, Option.map_eq_some_iff]

theorem entryAt_redByValDst_eq_some :
    entryAt cdc s .redByValDst fields = some value ↔
      ∃ d v w red, fields = [w, d, v] ∧ s.getRedelegation d v w = some red ∧
        value = fieldKey cdc .red [d, v, w] := by
  rcases fields with _ | ⟨v, _ | ⟨d, _ | ⟨w, _ | _⟩⟩⟩ <;>
    grind [entryAt, Option.map_eq_some_iff]

end EntryAt

/-- The store of bytes stands for the records in the maps. -/
structure Represents (cdc : Codec) (raw : RawStore) (s : Store) : Prop where
  entries (family : Family) {fields : List Address} (h : Addresses fields) :
    raw[fieldKey cdc family fields]? = entryAt cdc s family fields
  closed (family : Family) {rest value : Bytes} (h : raw[family.tag :: rest]? = some value) :
    ∃ fields, Addresses fields ∧ family.tag :: rest = fieldKey cdc family fields
  ubdOwn {d v : Address} {ubd : UnbondingDelegation} (h : s.getUnbondingDelegation d v = some ubd) :
    ubd.delegatorAddr = d ∧ ubd.validatorAddr = v ∧ Addresses [d, v]
  redOwn {d v w : Address} {red : Redelegation} (h : s.getRedelegation d v w = some red) :
    red.delegatorAddr = d ∧ red.validatorSrcAddr = v ∧ red.validatorDstAddr = w ∧
      Addresses [d, v, w]

/-- A write under a key of one of the kinds. -/
abbrev FieldWrite := Family × List Address × Option Bytes

/-- Some writes, one after the other. -/
def writeFields (cdc : Codec) (raw : RawStore) (writes : List FieldWrite) : RawStore :=
  writes.foldl (fun raw write => raw.applyWrite (fieldKey cdc write.1 write.2.1, write.2.2)) raw

/-- What is found under a key after some writes, if `found` was there before. -/
def foundAfter (writes : List FieldWrite) (family : Family) (fields : List Address)
    (found : Option Bytes) : Option Bytes :=
  writes.foldl (fun found write =>
    if write.1 = family ∧ write.2.1 = fields then write.2.2 else found) found

section Writes

variable {cdc : Codec} {raw : RawStore} {writes : List FieldWrite}

theorem getElem?_writeFields (hwrites : ∀ write ∈ writes, Addresses write.2.1) {family : Family}
    {fields : List Address} (hfields : Addresses fields) :
    (writeFields cdc raw writes)[fieldKey cdc family fields]? =
      foundAfter writes family fields raw[fieldKey cdc family fields]? := by
  induction writes generalizing raw with
  | nil => rfl
  | cons write writes ih =>
    have hrest := @ih (raw.applyWrite (fieldKey cdc write.1 write.2.1, write.2.2))
      fun w hw => hwrites w (by simp [hw])
    rw [KVStore.getElem?_applyWrite] at hrest
    simp only [fieldKey_inj (hwrites write (by simp)) hfields] at hrest
    exact hrest

theorem getElem?_writeFields_of_ne {key : Bytes}
    (hkey : ∀ write ∈ writes, fieldKey cdc write.1 write.2.1 ≠ key) :
    (writeFields cdc raw writes)[key]? = raw[key]? := by
  induction writes generalizing raw with
  | nil => rfl
  | cons write writes ih =>
    refine (ih fun w hw => hkey w (by simp [hw])).trans ?_
    rw [KVStore.getElem?_applyWrite, if_neg (hkey write (by simp))]

end Writes

/-- Writes keep the representation when the records change as they say. -/
theorem Represents.write {cdc : Codec} {raw : RawStore} {s s' : Store} (h : Represents cdc raw s)
    {writes : List FieldWrite} (hwrites : ∀ write ∈ writes, Addresses write.2.1)
    (hentries : ∀ family fields, entryAt cdc s' family fields =
      foundAfter writes family fields (entryAt cdc s family fields))
    (hubd : ∀ {d v ubd}, s'.getUnbondingDelegation d v = some ubd →
      ubd.delegatorAddr = d ∧ ubd.validatorAddr = v ∧ Addresses [d, v])
    (hred : ∀ {d v w red}, s'.getRedelegation d v w = some red → red.delegatorAddr = d ∧
      red.validatorSrcAddr = v ∧ red.validatorDstAddr = w ∧ Addresses [d, v, w]) :
    Represents cdc (writeFields cdc raw writes) s' where
  entries family {fields} hfields := by
    rw [getElem?_writeFields hwrites hfields, h.entries family hfields, hentries]
  closed family {rest value} hget := by
    by_cases hkey : ∀ write ∈ writes, fieldKey cdc write.1 write.2.1 ≠ family.tag :: rest
    · rw [getElem?_writeFields_of_ne hkey] at hget
      exact h.closed family hget
    · push Not at hkey
      obtain ⟨write, hwrite, heq⟩ := hkey
      have htag : write.1 = family := Family.tag_inj.mp (List.cons.inj heq).1
      exact ⟨write.2.1, hwrites write hwrite, htag ▸ heq.symm⟩
  ubdOwn := hubd
  redOwn := hred

/-! ## The four calls -/

/-- A call that writes records. -/
inductive RecordCall
  | setUnbondingDelegation (ubd : UnbondingDelegation)
  | removeUnbondingDelegation (ubd : UnbondingDelegation)
  | setRedelegation (red : Redelegation)
  | removeRedelegation (red : Redelegation)

namespace RecordCall

/-- The addresses in the record are addresses. -/
def Addressed : RecordCall → Prop
  | .setUnbondingDelegation ubd => Addresses [ubd.delegatorAddr, ubd.validatorAddr]
  | .removeUnbondingDelegation ubd => Addresses [ubd.delegatorAddr, ubd.validatorAddr]
  | .setRedelegation red =>
    Addresses [red.delegatorAddr, red.validatorSrcAddr, red.validatorDstAddr]
  | .removeRedelegation red =>
    Addresses [red.delegatorAddr, red.validatorSrcAddr, red.validatorDstAddr]

/-- The call on the store of bytes. -/
def onBytes (cdc : Codec) (raw : RawStore) : RecordCall → RawStore
  | .setUnbondingDelegation ubd => Raw.setUnbondingDelegation cdc raw ubd
  | .removeUnbondingDelegation ubd => Raw.removeUnbondingDelegation cdc raw ubd
  | .setRedelegation red => Raw.setRedelegation cdc raw red
  | .removeRedelegation red => Raw.removeRedelegation cdc raw red

/-- The call on the maps. -/
def onMaps (s : Store) : RecordCall → Store
  | .setUnbondingDelegation ubd => s.setUnbondingDelegation ubd
  | .removeUnbondingDelegation ubd => s.removeUnbondingDelegation ubd
  | .setRedelegation red => s.setRedelegation red
  | .removeRedelegation red => s.removeRedelegation red

/-- What the call writes. -/
def writes (cdc : Codec) : RecordCall → List FieldWrite
  | .setUnbondingDelegation ubd =>
    let d := ubd.delegatorAddr
    let v := ubd.validatorAddr
    [(.ubd, [d, v], some (cdc.unbondingDelegation.marshalBinary ubd)),
      (.ubdByVal, [v, d], some (fieldKey cdc .ubd [d, v]))]
  | .removeUnbondingDelegation ubd =>
    let d := ubd.delegatorAddr
    let v := ubd.validatorAddr
    [(.ubd, [d, v], none), (.ubdByVal, [v, d], none)]
  | .setRedelegation red =>
    let d := red.delegatorAddr
    let v := red.validatorSrcAddr
    let w := red.validatorDstAddr
    [(.red, [d, v, w], some (cdc.redelegation.marshalBinary red)),
      (.redByValSrc, [v, d, w], some (fieldKey cdc .red [d, v, w])),
      (.redByValDst, [w, d, v], some (fieldKey cdc .red [d, v, w]))]
  | .removeRedelegation red =>
    let d := red.delegatorAddr
    let v := red.validatorSrcAddr
    let w := red.validatorDstAddr
    [(.red, [d, v, w], none), (.redByValSrc, [v, d, w], none), (.redByValDst, [w, d, v], none)]

variable {cdc : Codec} {raw : RawStore} {s : Store} {call : RecordCall}

theorem addresses_writes (h : call.Addressed) :
    ∀ write ∈ call.writes cdc, Addresses write.2.1 := by
  cases call <;> simp_all [Addressed, writes, Addresses]

theorem onBytes_eq (h : call.Addressed) :
    call.onBytes cdc raw = writeFields cdc raw (call.writes cdc) := by
  cases call with
  | setUnbondingDelegation ubd | removeUnbondingDelegation ubd =>
    have hd : ubd.delegatorAddr.length = 20 := h _ (by simp)
    have hv : ubd.validatorAddr.length = 20 := h _ (by simp)
    simp only [onBytes, Raw.setUnbondingDelegation, Raw.removeUnbondingDelegation,
      getUBDKey_eq cdc hd, getUBDByValIndexKey_eq cdc hv]
    rfl
  | setRedelegation red | removeRedelegation red =>
    have hd : red.delegatorAddr.length = 20 := h _ (by simp)
    have hv : red.validatorSrcAddr.length = 20 := h _ (by simp)
    have hw : red.validatorDstAddr.length = 20 := h _ (by simp)
    simp only [onBytes, Raw.setRedelegation, Raw.removeRedelegation, getREDKey_eq cdc hd,
      getREDByValSrcIndexKey_eq cdc hv, getREDByValDstIndexKey_eq cdc hw]
    rfl

/-- The records change as the writes say. -/
theorem entryAt_onMaps (family : Family) (fields : List Address) :
    entryAt cdc (call.onMaps s) family fields =
      foundAfter (call.writes cdc) family fields (entryAt cdc s family fields) := by
  have hred : ∀ ubd d v w, (s.setUnbondingDelegation ubd).getRedelegation d v w =
      s.getRedelegation d v w ∧ (s.removeUnbondingDelegation ubd).getRedelegation d v w =
        s.getRedelegation d v w := fun _ _ _ _ => ⟨rfl, rfl⟩
  have hubd : ∀ red d v, (s.setRedelegation red).getUnbondingDelegation d v =
      s.getUnbondingDelegation d v ∧ (s.removeRedelegation red).getUnbondingDelegation d v =
        s.getUnbondingDelegation d v := fun _ _ _ => ⟨rfl, rfl⟩
  unfold entryAt
  cases call with
  | setUnbondingDelegation ubd | removeUnbondingDelegation ubd =>
    simp only [onMaps, writes, foundAfter, List.foldl_cons, List.foldl_nil,
      Store.getUnbondingDelegation_set, Store.getUnbondingDelegation_remove, hred]
    split <;> grind
  | setRedelegation red | removeRedelegation red =>
    simp only [onMaps, writes, foundAfter, List.foldl_cons, List.foldl_nil,
      Store.getRedelegation_set, Store.getRedelegation_remove, hubd]
    split <;> grind

/-- The pair whose unbonding delegation a call is about. -/
def ubdOf : RecordCall → Option (Address × Address)
  | .setUnbondingDelegation ubd => some (ubd.delegatorAddr, ubd.validatorAddr)
  | .removeUnbondingDelegation ubd => some (ubd.delegatorAddr, ubd.validatorAddr)
  | _ => none

/-- The triple whose redelegation a call is about. -/
def redOf : RecordCall → Option (Address × Address × Address)
  | .setRedelegation red =>
    some (red.delegatorAddr, red.validatorSrcAddr, red.validatorDstAddr)
  | .removeRedelegation red =>
    some (red.delegatorAddr, red.validatorSrcAddr, red.validatorDstAddr)
  | _ => none

theorem getUnbondingDelegation_onMaps {d v : Address} (h : call.ubdOf ≠ some (d, v)) :
    (call.onMaps s).getUnbondingDelegation d v = s.getUnbondingDelegation d v := by
  cases call with
  | setUnbondingDelegation ubd | removeUnbondingDelegation ubd =>
    simp only [onMaps, Store.getUnbondingDelegation_set, Store.getUnbondingDelegation_remove]
    rw [if_neg]
    rintro ⟨rfl, rfl⟩
    exact h rfl
  | setRedelegation red | removeRedelegation red => rfl

theorem getRedelegation_onMaps {d v w : Address} (h : call.redOf ≠ some (d, v, w)) :
    (call.onMaps s).getRedelegation d v w = s.getRedelegation d v w := by
  cases call with
  | setUnbondingDelegation ubd | removeUnbondingDelegation ubd => rfl
  | setRedelegation red | removeRedelegation red =>
    simp only [onMaps, Store.getRedelegation_set, Store.getRedelegation_remove]
    rw [if_neg]
    rintro ⟨rfl, rfl, rfl⟩
    exact h rfl

end RecordCall

/-- Every call keeps the representation. -/
theorem Represents.call {cdc : Codec} {raw : RawStore} {s : Store} (h : Represents cdc raw s)
    {call : RecordCall} (hcall : call.Addressed) :
    Represents cdc (call.onBytes cdc raw) (call.onMaps s) := by
  rw [RecordCall.onBytes_eq hcall]
  refine h.write (RecordCall.addresses_writes hcall) RecordCall.entryAt_onMaps ?_ ?_
  · intro d v ubd hget
    cases call with
    | setUnbondingDelegation ubd' =>
      rw [RecordCall.onMaps, Store.getUnbondingDelegation_set] at hget
      split_ifs at hget with hsame
      · obtain ⟨rfl, rfl⟩ := hsame
        cases hget
        exact ⟨rfl, rfl, hcall⟩
      · exact h.ubdOwn hget
    | removeUnbondingDelegation ubd' =>
      rw [RecordCall.onMaps, Store.getUnbondingDelegation_remove] at hget
      split_ifs at hget
      exact h.ubdOwn hget
    | setRedelegation red | removeRedelegation red => exact h.ubdOwn hget
  · intro d v w red hget
    cases call with
    | setUnbondingDelegation ubd | removeUnbondingDelegation ubd => exact h.redOwn hget
    | setRedelegation red' =>
      rw [RecordCall.onMaps, Store.getRedelegation_set] at hget
      split_ifs at hget with hsame
      · obtain ⟨rfl, rfl, rfl⟩ := hsame
        cases hget
        exact ⟨rfl, rfl, rfl, hcall⟩
      · exact h.redOwn hget
    | removeRedelegation red' =>
      rw [RecordCall.onMaps, Store.getRedelegation_remove] at hget
      split_ifs at hget
      exact h.redOwn hget

theorem Represents.calls {cdc : Codec} {raw : RawStore} {s : Store} (h : Represents cdc raw s)
    {calls : List RecordCall} (hcalls : ∀ call ∈ calls, call.Addressed) :
    Represents cdc (calls.foldl (RecordCall.onBytes cdc) raw)
      (calls.foldl RecordCall.onMaps s) := by
  induction calls generalizing raw s with
  | nil => exact h
  | cons call calls ih =>
    exact ih (h.call (hcalls call (by simp))) fun c hc => hcalls c (by simp [hc])

theorem getElem?_onBytes {cdc : Codec} {raw : RawStore} {call : RecordCall}
    (hcall : call.Addressed) {key : Bytes} (hkey : ∀ family : Family, key.head? ≠ some family.tag) :
    (call.onBytes cdc raw)[key]? = raw[key]? := by
  rw [RecordCall.onBytes_eq hcall]
  refine getElem?_writeFields_of_ne fun write _ heq => hkey write.1 ?_
  rw [← heq]
  rfl

/-! ## Reading -/

section Reading

variable {cdc : Codec} {raw : RawStore} {s : Store}

theorem mustUnmarshalBinary_eq_ok {α : Type} {codec : BinaryCodec α} (a : α) :
    mustUnmarshalBinary codec (some (codec.marshalBinary a)) = .ok a := by
  simp [mustUnmarshalBinary, codec.unmarshal_marshal]

theorem kvStorePrefixIterator_spec (raw : RawStore) {pre : Bytes} (hpre : pre ≠ []) :
    ∃ entries, kvStorePrefixIterator raw pre = .ok entries ∧ entries.Nodup ∧
      ∀ key value, (key, value) ∈ entries ↔ raw[key]? = some value ∧ pre <+: key := by
  have hsome : some pre ≠ some [] := by simpa using hpre
  obtain ⟨stop, hstop⟩ := exists_prefixEndBytes hsome
  have hlists := lists_toList (InDomain (some pre) stop) raw
  refine ⟨raw.toList.filter fun pair => InDomain (some pre) stop pair.1, ?_, hlists.nodup, ?_⟩
  · rw [kvStorePrefixIterator, hstop]
  · intro key value
    rw [hlists.mem_iff, inDomain_prefixEnd_iff hstop]

/-- If the index entries under a prefix are those of some records, the loop returns these. -/
theorem recordsBehind_spec {α : Type} {codec : BinaryCodec α} {pre : Bytes} (hpre : pre ≠ [])
    {Stored : α → Prop} (indexKey recordKey : α → Bytes)
    (hindex : ∀ key value, raw[key]? = some value ∧ pre <+: key ↔
      ∃ a, Stored a ∧ key = indexKey a ∧ value = recordKey a)
    (hrecord : ∀ a, Stored a → raw[recordKey a]? = some (codec.marshalBinary a)) :
    ∃ records, recordsBehind codec raw pre = .ok records ∧ records.Nodup ∧
      ∀ a, a ∈ records ↔ Stored a := by
  obtain ⟨entries, hentries, hnodup, hmem⟩ := kvStorePrefixIterator_spec raw hpre
  have hdecode : ∀ a, Stored a → mustUnmarshalBinary codec raw[recordKey a]? = .ok a := by
    intro a ha
    rw [hrecord a ha, mustUnmarshalBinary_eq_ok]
  -- what an entry decodes to is the record that it belongs to
  have hentry : ∀ entry ∈ entries, ∀ a, mustUnmarshalBinary codec raw[entry.2]? = .ok a →
      Stored a ∧ entry = (indexKey a, recordKey a) := by
    rintro ⟨key, value⟩ hin a ha
    obtain ⟨b, hb, rfl, rfl⟩ := (hindex key value).mp ((hmem key value).mp hin)
    rw [hdecode b hb] at ha
    cases ha
    exact ⟨hb, rfl⟩
  have hstored : ∀ a, Stored a → (indexKey a, recordKey a) ∈ entries := fun a ha =>
    (hmem _ _).mpr ((hindex _ _).mpr ⟨a, ha, rfl, rfl⟩)
  obtain ⟨records, hrecords⟩ :
      ∃ records, entries.mapM (fun entry => mustUnmarshalBinary codec raw[entry.2]?) =
        .ok records := by
    refine mapM_returns_iff.mpr ?_
    rintro ⟨key, value⟩ hin
    obtain ⟨a, ha, rfl, rfl⟩ := (hindex key value).mp ((hmem key value).mp hin)
    exact ⟨a, hdecode a ha⟩
  refine ⟨records, ?_, nodup_of_mapM hrecords hnodup ?_, fun a => ⟨fun ha => ?_, fun ha => ?_⟩⟩
  · rw [recordsBehind, hentries]
    exact hrecords
  · intro entry entry' a hin hin' ha ha'
    rw [(hentry entry hin a ha).2, (hentry entry' hin' a ha').2]
  · obtain ⟨entry, hin, hdecoded⟩ := exists_of_mem_mapM hrecords ha
    exact (hentry entry hin a hdecoded).1
  · obtain ⟨b, hb, hdecoded⟩ := exists_mem_of_mapM hrecords (hstored a ha)
    rw [hdecode a ha] at hdecoded
    cases hdecoded
    exact hb

namespace Represents

theorem under_iff (h : Represents cdc raw s) (family : Family) {fields : List Address}
    (hfields : Addresses fields) (key value : Bytes) :
    raw[key]? = some value ∧ fieldKey cdc family fields <+: key ↔
      ∃ all, Addresses all ∧ fields <+: all ∧ key = fieldKey cdc family all ∧
        entryAt cdc s family all = some value := by
  constructor
  · rintro ⟨hget, tail, rfl⟩
    obtain ⟨all, hall, heq⟩ := h.closed family hget
    have hprefix : fieldKey cdc family fields <+: fieldKey cdc family all := ⟨tail, heq⟩
    refine ⟨all, hall, ((fieldKey_prefix_iff hfields hall).mp hprefix).2, heq, ?_⟩
    rw [← h.entries family hall, ← hget]
    exact congrArg (raw[·]?) heq.symm
  · rintro ⟨all, hall, hprefix, rfl, hentry⟩
    exact ⟨(h.entries family hall).trans hentry,
      (fieldKey_prefix_iff hfields hall).mpr ⟨rfl, hprefix⟩⟩

theorem getUnbondingDelegation (h : Represents cdc raw s) {d v : Address}
    (haddr : Addresses [d, v]) :
    Raw.getUnbondingDelegation cdc raw d v = .ok (s.getUnbondingDelegation d v) := by
  have hentry := h.entries .ubd haddr
  rw [Raw.getUnbondingDelegation, getUBDKey_eq cdc (haddr d (by simp)), hentry, entryAt]
  cases s.getUnbondingDelegation d v with
  | none => rfl
  | some ubd =>
    rw [Option.map_some]
    dsimp only
    rw [mustUnmarshalBinary_eq_ok]
    rfl

theorem getRedelegation (h : Represents cdc raw s) {d v w : Address}
    (haddr : Addresses [d, v, w]) :
    Raw.getRedelegation cdc raw d v w = .ok (s.getRedelegation d v w) := by
  have hentry := h.entries .red haddr
  rw [Raw.getRedelegation, getREDKey_eq cdc (haddr d (by simp)), hentry, entryAt]
  cases s.getRedelegation d v w with
  | none => rfl
  | some red =>
    rw [Option.map_some]
    dsimp only
    rw [mustUnmarshalBinary_eq_ok]
    rfl

theorem getUnbondingDelegationsFromValidator (h : Represents cdc raw s) {v : Address}
    (hv : v.length = 20) :
    ∃ ubds, Raw.getUnbondingDelegationsFromValidator cdc raw v = .ok ubds ∧ ubds.Nodup ∧
      ∀ ubd, ubd ∈ ubds ↔
        ubd.validatorAddr = v ∧ s.getUnbondingDelegation ubd.delegatorAddr v = some ubd := by
  rw [Raw.getUnbondingDelegationsFromValidator, getUBDsByValIndexKey_eq cdc hv]
  refine recordsBehind_spec (by simp [fieldKey])
    (fun ubd => fieldKey cdc .ubdByVal [v, ubd.delegatorAddr])
    (fun ubd => fieldKey cdc .ubd [ubd.delegatorAddr, v]) (fun key value => ?_) ?_
  · rw [h.under_iff _ (by simpa [Addresses] using hv)]
    constructor
    · rintro ⟨fields, -, hprefix, rfl, hentry⟩
      obtain ⟨d, v', ubd, rfl, hget, rfl⟩ := entryAt_ubdByVal_eq_some.mp hentry
      obtain ⟨rfl, -⟩ := List.cons_prefix_cons.mp hprefix
      obtain ⟨rfl, hown, -⟩ := h.ubdOwn hget
      exact ⟨ubd, ⟨hown, hget⟩, rfl, rfl⟩
    · rintro ⟨ubd, ⟨-, hget⟩, rfl, rfl⟩
      refine ⟨_, ?_, by simp, rfl, entryAt_ubdByVal_eq_some.mpr ⟨_, _, ubd, rfl, hget, rfl⟩⟩
      have haddr := (h.ubdOwn hget).2.2
      simpa [Addresses, and_comm] using haddr
  · rintro ubd ⟨-, hget⟩
    rw [h.entries .ubd (h.ubdOwn hget).2.2, entryAt, hget, Option.map_some]

theorem getRedelegationsFromValidator (h : Represents cdc raw s) {v : Address}
    (hv : v.length = 20) :
    ∃ reds, Raw.getRedelegationsFromValidator cdc raw v = .ok reds ∧ reds.Nodup ∧
      ∀ red, red ∈ reds ↔ red.validatorSrcAddr = v ∧
        s.getRedelegation red.delegatorAddr v red.validatorDstAddr = some red := by
  rw [Raw.getRedelegationsFromValidator, getREDsFromValSrcIndexKey_eq cdc hv]
  refine recordsBehind_spec (by simp [fieldKey])
    (fun red => fieldKey cdc .redByValSrc [v, red.delegatorAddr, red.validatorDstAddr])
    (fun red => fieldKey cdc .red [red.delegatorAddr, v, red.validatorDstAddr])
    (fun key value => ?_) ?_
  · rw [h.under_iff _ (by simpa [Addresses] using hv)]
    constructor
    · rintro ⟨fields, -, hprefix, rfl, hentry⟩
      obtain ⟨d, v', w, red, rfl, hget, rfl⟩ := entryAt_redByValSrc_eq_some.mp hentry
      obtain ⟨rfl, -⟩ := List.cons_prefix_cons.mp hprefix
      obtain ⟨rfl, hown, rfl, -⟩ := h.redOwn hget
      exact ⟨red, ⟨hown, hget⟩, rfl, rfl⟩
    · rintro ⟨red, ⟨-, hget⟩, rfl, rfl⟩
      refine ⟨_, ?_, by simp, rfl, entryAt_redByValSrc_eq_some.mpr ⟨_, _, _, red, rfl, hget, rfl⟩⟩
      have haddr := (h.redOwn hget).2.2.2
      simp only [Addresses, List.forall_mem_cons] at haddr ⊢
      exact ⟨haddr.2.1, haddr.1, haddr.2.2⟩
  · rintro red ⟨-, hget⟩
    rw [h.entries .red (h.redOwn hget).2.2.2, entryAt, hget, Option.map_some]

theorem hasReceivingRedelegation (h : Represents cdc raw s) {d w : Address}
    (haddr : Addresses [d, w]) :
    ∃ found, Raw.hasReceivingRedelegation cdc raw d w = .ok found ∧
      (found = true ↔ ∃ red : Redelegation, red.delegatorAddr = d ∧ red.validatorDstAddr = w ∧
        s.getRedelegation d red.validatorSrcAddr w = some red) := by
  have hd : d.length = 20 := haddr d (by simp)
  have hw : w.length = 20 := haddr w (by simp)
  have hne : fieldKey cdc .redByValDst [w, d] ≠ [] := by simp [fieldKey]
  obtain ⟨entries, hentries, -, hmem⟩ := kvStorePrefixIterator_spec raw hne
  refine ⟨!entries.isEmpty, ?_, ?_⟩
  · rw [Raw.hasReceivingRedelegation, getREDsByDelToValDstIndexKey_eq cdc hw, hentries]
    rfl
  have haddr' : Addresses [w, d] := by simp [Addresses, hd, hw]
  have hunder := h.under_iff .redByValDst haddr'
  rw [Bool.not_eq_true', List.isEmpty_eq_false_iff_exists_mem]
  constructor
  · rintro ⟨⟨key, value⟩, hin⟩
    obtain ⟨fields, -, hprefix, -, hentry⟩ := (hunder key value).mp ((hmem key value).mp hin)
    obtain ⟨d', v, w', red, rfl, hget, -⟩ := entryAt_redByValDst_eq_some.mp hentry
    obtain ⟨rfl, hrest⟩ := List.cons_prefix_cons.mp hprefix
    obtain ⟨rfl, -⟩ := List.cons_prefix_cons.mp hrest
    obtain ⟨hdel, rfl, hdst, -⟩ := h.redOwn hget
    exact ⟨red, hdel, hdst, hget⟩
  · rintro ⟨red, -, -, hget⟩
    have hsrc := (h.redOwn hget).2.2.2 red.validatorSrcAddr (by simp)
    have haddr' : Addresses [w, d, red.validatorSrcAddr] := by simp [Addresses, hd, hw, hsrc]
    have hentry := (@entryAt_redByValDst_eq_some cdc s).mpr ⟨d, _, w, red, rfl, hget, rfl⟩
    exact ⟨(_, _), (hmem _ _).mpr ((hunder _ _).mpr ⟨_, haddr', by simp, rfl, hentry⟩)⟩

end Represents

end Reading

/-! ## Whole sequences of calls -/

/-- No key of the five kinds is in the store. -/
def Fresh (raw : RawStore) : Prop :=
  ∀ (family : Family) (rest : Bytes), raw[family.tag :: rest]? = none

/-- A store without these records. -/
structure Bare (s : Store) : Prop where
  ubds (d v : Address) : s.getUnbondingDelegation d v = none
  reds (d v w : Address) : s.getRedelegation d v w = none

theorem represents_of_fresh (cdc : Codec) {raw : RawStore} {s : Store} (hraw : Fresh raw)
    (hs : Bare s) : Represents cdc raw s where
  entries family fields _ := by
    rw [fieldKey, hraw]
    unfold entryAt
    split <;> simp [hs.ubds, hs.reds]
  closed family rest value hget := by
    rw [hraw] at hget
    cases hget
  ubdOwn hget := by
    rw [hs.ubds] at hget
    cases hget
  redOwn hget := by
    rw [hs.reds] at hget
    cases hget

/-- The lookups by validator agree with the records. -/
structure IndexesMirror (cdc : Codec) (raw : RawStore) (s : Store) : Prop where
  ubd {d v : Address} (h : Addresses [d, v]) :
    getUnbondingDelegation cdc raw d v = .ok (s.getUnbondingDelegation d v)
  red {d v w : Address} (h : Addresses [d, v, w]) :
    getRedelegation cdc raw d v w = .ok (s.getRedelegation d v w)
  ubdsFrom {v : Address} (h : v.length = 20) :
    ∃ ubds, getUnbondingDelegationsFromValidator cdc raw v = .ok ubds ∧ ubds.Nodup ∧
      ∀ ubd, ubd ∈ ubds ↔
        ubd.validatorAddr = v ∧ s.getUnbondingDelegation ubd.delegatorAddr v = some ubd
  redsFrom {v : Address} (h : v.length = 20) :
    ∃ reds, getRedelegationsFromValidator cdc raw v = .ok reds ∧ reds.Nodup ∧
      ∀ red, red ∈ reds ↔ red.validatorSrcAddr = v ∧
        s.getRedelegation red.delegatorAddr v red.validatorDstAddr = some red
  receiving {d w : Address} (h : Addresses [d, w]) :
    ∃ found, hasReceivingRedelegation cdc raw d w = .ok found ∧
      (found = true ↔ ∃ red : Redelegation, red.delegatorAddr = d ∧ red.validatorDstAddr = w ∧
        s.getRedelegation d red.validatorSrcAddr w = some red)

theorem Represents.indexesMirror {cdc : Codec} {raw : RawStore} {s : Store}
    (h : Represents cdc raw s) : IndexesMirror cdc raw s where
  ubd := h.getUnbondingDelegation
  red := h.getRedelegation
  ubdsFrom := h.getUnbondingDelegationsFromValidator
  redsFrom := h.getRedelegationsFromValidator
  receiving := h.hasReceivingRedelegation

/-- A call leaves every record but its own, and everything that is stored under another tag:
delegations have `0x0A` and validators `0x02` to `0x09`. -/
structure Undisturbed (cdc : Codec) (raw : RawStore) (call : RecordCall) : Prop where
  ubd {d v : Address} (h : Addresses [d, v]) (hother : call.ubdOf ≠ some (d, v)) :
    getUnbondingDelegation cdc (call.onBytes cdc raw) d v = getUnbondingDelegation cdc raw d v
  red {d v w : Address} (h : Addresses [d, v, w]) (hother : call.redOf ≠ some (d, v, w)) :
    getRedelegation cdc (call.onBytes cdc raw) d v w = getRedelegation cdc raw d v w
  rest {key : Bytes} (h : ∀ family : Family, key.head? ≠ some family.tag) :
    (call.onBytes cdc raw)[key]? = raw[key]?

theorem Represents.undisturbed {cdc : Codec} {raw : RawStore} {s : Store}
    (h : Represents cdc raw s) {call : RecordCall} (hcall : call.Addressed) :
    Undisturbed cdc raw call where
  ubd haddr hother := by
    rw [(h.call hcall).getUnbondingDelegation haddr, h.getUnbondingDelegation haddr,
      RecordCall.getUnbondingDelegation_onMaps hother]
  red haddr hother := by
    rw [(h.call hcall).getRedelegation haddr, h.getRedelegation haddr,
      RecordCall.getRedelegation_onMaps hother]
  rest hkey := getElem?_onBytes hcall hkey

/-- After any sequence of calls on addresses of 20 bytes, the lookups by validator return the
records that the calls have left, each once, and a further call disturbs nothing else. -/
theorem indexes_mirror_records (cdc : Codec) {raw₀ : RawStore} (hraw : Fresh raw₀) {s₀ : Store}
    (hs : Bare s₀) {calls : List RecordCall} (hcalls : ∀ call ∈ calls, call.Addressed) :
    IndexesMirror cdc (calls.foldl (RecordCall.onBytes cdc) raw₀)
        (calls.foldl RecordCall.onMaps s₀) ∧
      ∀ call : RecordCall, call.Addressed →
        Undisturbed cdc (calls.foldl (RecordCall.onBytes cdc) raw₀) call := by
  have hrep := (represents_of_fresh cdc hraw hs).calls hcalls
  exact ⟨hrep.indexesMirror, fun _ hcall => hrep.undisturbed hcall⟩

section Wires

/-- An encoding as the codec of one type. -/
def BinaryCodec.ofWire {α : Type} (w : Wire α) : BinaryCodec α := ⟨w.put, w.decode, w.decode_put⟩

/-- An encoding of fractions by their numerator and denominator. -/
def ratWire : Wire ℚ :=
  (Wire.int.pair Wire.nat).retract (fun q => (q.num, q.den)) (fun p => mkRat p.1 p.2) Rat.mkRat_self

/-- An encoding of unbonding delegations by their fields. -/
def unbondingDelegationWire : Wire UnbondingDelegation :=
  let address := Wire.byte.list
  (address.pair (address.pair (Wire.int.pair (Wire.int.pair (Coin.wire.pair Coin.wire))))).retract
    (fun ubd => (ubd.delegatorAddr, ubd.validatorAddr, ubd.creationHeight, ubd.minTime,
      ubd.initialBalance, ubd.balance))
    (fun (d, v, creationHeight, minTime, initialBalance, balance) =>
      ⟨d, v, creationHeight, minTime, initialBalance, balance⟩) fun _ => rfl

/-- An encoding of redelegations by their fields. -/
def redelegationWire : Wire Redelegation :=
  let address := Wire.byte.list
  (address.pair (address.pair (address.pair (Wire.int.pair (Wire.int.pair (Coin.wire.pair
    (Coin.wire.pair (ratWire.pair ratWire)))))))).retract
    (fun red => (red.delegatorAddr, red.validatorSrcAddr, red.validatorDstAddr, red.creationHeight,
      red.minTime, red.initialBalance, red.balance, red.sharesSrc, red.sharesDst))
    (fun (d, v, w, creationHeight, minTime, initialBalance, balance, sharesSrc, sharesDst) =>
      ⟨d, v, w, creationHeight, minTime, initialBalance, balance, sharesSrc, sharesDst⟩)
    fun _ => rfl

/-- A codec made of these. -/
def fieldCodec : Codec where
  lengthBytes := Wire.nat.put
  unbondingDelegation := .ofWire unbondingDelegationWire
  redelegation := .ofWire redelegationWire

end Wires

/-- Two unbonding delegations from a validator, one of them removed again, and a redelegation. -/
def someCalls : List RecordCall :=
  let a : Address := List.replicate 20 1
  let b : Address := List.replicate 20 2
  let v : Address := List.replicate 20 3
  let w : Address := List.replicate 20 4
  let coin : Coin := ⟨"steak", 5⟩
  [.setUnbondingDelegation ⟨a, v, 1, 10, coin, coin⟩,
    .setRedelegation ⟨a, v, w, 1, 10, coin, coin, 5, 5⟩,
    .setUnbondingDelegation ⟨b, v, 2, 11, coin, coin⟩,
    .removeUnbondingDelegation ⟨a, v, 1, 10, coin, coin⟩]

theorem indexes_mirror_example :
    (∀ call ∈ someCalls, call.Addressed) ∧
      IndexesMirror fieldCodec (someCalls.foldl (RecordCall.onBytes fieldCodec) ∅)
        (someCalls.foldl RecordCall.onMaps (emptyStore defaultParams initialPool ⟨∅, 0⟩)) := by
  have haddressed : ∀ call ∈ someCalls, call.Addressed := by
    simp [someCalls, RecordCall.Addressed, Addresses]
  have hfresh : Fresh ∅ := fun _ _ => by simp
  have hbare : Bare (emptyStore defaultParams initialPool ⟨∅, 0⟩) :=
    ⟨fun _ _ => rfl, fun _ _ _ => rfl⟩
  exact ⟨haddressed, (indexes_mirror_records fieldCodec hfresh hbare haddressed).1⟩

end Tepleton.Stake.Raw
