import Tepleton.Stake.Types.Msg
import Tepleton.Types.Decimal

/-!
# What the signer of a stake message signs: `GetSignBytes` in `x/stake/types/msg.go`

Each message copies its fields into a record of its own, with addresses, keys and rationals turned into
text, and signs the JSON of that record.  A field that is not copied is not signed: the record of a
create-validator message has a place for the bond that is never filled (`create_signs_no_amount`).
It is the only such field (`signBytes_binds_iff`).
-/

namespace Tepleton.Stake

open Lib

/-! ## The signed records -/

/-- The value of a field of a signed record. -/
inductive Field
  | text (value : Bytes)
  | coin (value : Coin)
  | description (value : Description)
  deriving DecidableEq

/-- A signed record: the names of its fields, as the JSON tags give them, and their values. -/
abbrev SignDoc := List (String × Field)

/-- The encodings under a signature.  Different values have different encodings. -/
structure Encoding where
  marshalJSON : SignDoc → Bytes
  mustBech32ifyAcc : Address → Bytes
  mustBech32ifyVal : Address → Bytes
  mustBech32ifyValPub : PubKey → Bytes
  marshalJSON_injective : Function.Injective marshalJSON
  mustBech32ifyAcc_injective : Function.Injective mustBech32ifyAcc
  mustBech32ifyVal_injective : Function.Injective mustBech32ifyVal
  mustBech32ifyValPub_injective : Function.Injective mustBech32ifyValPub

variable (e : Encoding)

/-- `MsgCreateValidator.GetSignBytes`.  The literal sets three of the four fields; the bond stays a
zero `Coin`. -/
def MsgCreateValidator.getSignBytes (msg : MsgCreateValidator) : Bytes :=
  e.marshalJSON
    [("Description", .description msg.description),
      ("address", .text (e.mustBech32ifyVal msg.validatorAddr)),
      ("pubkey", .text (e.mustBech32ifyValPub msg.pubKey)),
      ("bond", .coin ⟨"", 0⟩)]

def MsgEditValidator.getSignBytes (msg : MsgEditValidator) : Bytes :=
  e.marshalJSON
    [("Description", .description msg.description),
      ("address", .text (e.mustBech32ifyVal msg.validatorAddr))]

def MsgDelegate.getSignBytes (msg : MsgDelegate) : Bytes :=
  e.marshalJSON
    [("delegator_addr", .text (e.mustBech32ifyAcc msg.delegatorAddr)),
      ("validator_addr", .text (e.mustBech32ifyVal msg.validatorAddr)),
      ("bond", .coin msg.bond)]

def MsgBeginRedelegate.getSignBytes (msg : MsgBeginRedelegate) : Bytes :=
  e.marshalJSON
    [("delegator_addr", .text (e.mustBech32ifyAcc msg.delegatorAddr)),
      ("validator_src_addr", .text (e.mustBech32ifyVal msg.validatorSrcAddr)),
      ("validator_dst_addr", .text (e.mustBech32ifyVal msg.validatorDstAddr)),
      ("shares", .text (ratString msg.sharesAmount))]

def MsgCompleteRedelegate.getSignBytes (msg : MsgCompleteRedelegate) : Bytes :=
  e.marshalJSON
    [("delegator_addr", .text (e.mustBech32ifyAcc msg.delegatorAddr)),
      ("validator_src_addr", .text (e.mustBech32ifyVal msg.validatorSrcAddr)),
      ("validator_dst_addr", .text (e.mustBech32ifyVal msg.validatorDstAddr))]

def MsgBeginUnbonding.getSignBytes (msg : MsgBeginUnbonding) : Bytes :=
  e.marshalJSON
    [("delegator_addr", .text (e.mustBech32ifyAcc msg.delegatorAddr)),
      ("validator_addr", .text (e.mustBech32ifyVal msg.validatorAddr)),
      ("shares_amount", .text (ratString msg.sharesAmount))]

def MsgCompleteUnbonding.getSignBytes (msg : MsgCompleteUnbonding) : Bytes :=
  e.marshalJSON
    [("delegator_addr", .text (e.mustBech32ifyAcc msg.delegatorAddr)),
      ("validator_src_addr", .text (e.mustBech32ifyVal msg.validatorAddr))]

/-- The messages of the module. -/
inductive Msg
  | createValidator (msg : MsgCreateValidator)
  | editValidator (msg : MsgEditValidator)
  | delegate (msg : MsgDelegate)
  | beginRedelegate (msg : MsgBeginRedelegate)
  | completeRedelegate (msg : MsgCompleteRedelegate)
  | beginUnbonding (msg : MsgBeginUnbonding)
  | completeUnbonding (msg : MsgCompleteUnbonding)

/-- `ValidateBasic`, which asks nothing of the messages that complete. -/
def Msg.validateBasic : Msg → Outcome Unit
  | .createValidator msg => msg.validateBasic
  | .editValidator msg => msg.validateBasic
  | .delegate msg => msg.validateBasic
  | .beginRedelegate msg => msg.validateBasic
  | .completeRedelegate _ => .ok ()
  | .beginUnbonding msg => msg.validateBasic
  | .completeUnbonding _ => .ok ()

def Msg.getSignBytes : Msg → Bytes
  | .createValidator msg => msg.getSignBytes e
  | .editValidator msg => msg.getSignBytes e
  | .delegate msg => msg.getSignBytes e
  | .beginRedelegate msg => msg.getSignBytes e
  | .completeRedelegate msg => msg.getSignBytes e
  | .beginUnbonding msg => msg.getSignBytes e
  | .completeUnbonding msg => msg.getSignBytes e

/-- Two messages of one Go type. -/
def Msg.SameType : Msg → Msg → Prop
  | .createValidator _, .createValidator _ => True
  | .editValidator _, .editValidator _ => True
  | .delegate _, .delegate _ => True
  | .beginRedelegate _, .beginRedelegate _ => True
  | .completeRedelegate _, .completeRedelegate _ => True
  | .beginUnbonding _, .beginUnbonding _ => True
  | .completeUnbonding _, .completeUnbonding _ => True
  | _, _ => False

/-! ## What a signature binds -/

variable {e}

@[simp] theorem Encoding.marshalJSON_inj {doc doc' : SignDoc} :
    e.marshalJSON doc = e.marshalJSON doc' ↔ doc = doc' := e.marshalJSON_injective.eq_iff

@[simp] theorem Encoding.mustBech32ifyAcc_inj {a b : Address} :
    e.mustBech32ifyAcc a = e.mustBech32ifyAcc b ↔ a = b := e.mustBech32ifyAcc_injective.eq_iff

@[simp] theorem Encoding.mustBech32ifyVal_inj {a b : Address} :
    e.mustBech32ifyVal a = e.mustBech32ifyVal b ↔ a = b := e.mustBech32ifyVal_injective.eq_iff

@[simp] theorem Encoding.mustBech32ifyValPub_inj {a b : PubKey} :
    e.mustBech32ifyValPub a = e.mustBech32ifyValPub b ↔ a = b :=
  e.mustBech32ifyValPub_injective.eq_iff

theorem MsgCreateValidator.getSignBytes_inj {msg msg' : MsgCreateValidator} :
    msg.getSignBytes e = msg'.getSignBytes e ↔ msg.description = msg'.description ∧
      msg.validatorAddr = msg'.validatorAddr ∧ msg.pubKey = msg'.pubKey := by
  simp [getSignBytes]

/-- Two messages that create the same validator, with the same text, from different amounts. -/
def Msg.OnlyAmountDiffers : Msg → Msg → Prop
  | .createValidator msg, .createValidator msg' =>
    msg.description = msg'.description ∧ msg.validatorAddr = msg'.validatorAddr ∧
      msg.pubKey = msg'.pubKey ∧ msg.selfDelegation ≠ msg'.selfDelegation
  | _, _ => False

/-- What is signed determines the message, except for the amount of a create-validator message.  This
holds of all messages, also of those that `ValidateBasic` refuses. -/
theorem signBytes_binds_iff (e : Encoding) {msg msg' : Msg} (htype : msg.SameType msg') :
    (msg.getSignBytes e = msg'.getSignBytes e → msg = msg') ↔ ¬ msg.OnlyAmountDiffers msg' := by
  cases msg <;> cases msg' <;> try exact htype.elim
  case createValidator.createValidator msg msg' =>
      rw [Msg.getSignBytes, Msg.getSignBytes, MsgCreateValidator.getSignBytes_inj,
        Msg.OnlyAmountDiffers, Msg.createValidator.injEq]
      obtain ⟨description, validatorAddr, pubKey, selfDelegation⟩ := msg
      obtain ⟨description', validatorAddr', pubKey', selfDelegation'⟩ := msg'
      simp only [MsgCreateValidator.mk.injEq]
      tauto
  -- all other messages copy every field
  all_goals
    rename_i msg msg'
    cases msg
    cases msg'
    simp [Msg.getSignBytes, MsgEditValidator.getSignBytes, MsgDelegate.getSignBytes,
      MsgBeginRedelegate.getSignBytes, MsgCompleteRedelegate.getSignBytes,
      MsgBeginUnbonding.getSignBytes, MsgCompleteUnbonding.getSignBytes, Msg.OnlyAmountDiffers,
      ratString_injective.eq_iff]

/-! ## An encoding -/

/-- The value of a field with a tag for its kind. -/
def Field.wire : Wire Field :=
  let descriptionWire := Wire.string.pair (Wire.string.pair (Wire.string.pair Wire.string))
  (Wire.nat.pair (Wire.byte.list.pair (Coin.wire.pair descriptionWire))).retract
    (fun
      | .text value => (0, value, ⟨"", 0⟩, "", "", "", "")
      | .coin value => (1, [], value, "", "", "", "")
      | .description ⟨moniker, identity, website, details⟩ =>
        (2, [], ⟨"", 0⟩, moniker, identity, website, details))
    (fun
      | (0, value, _) => .text value
      | (1, _, value, _) => .coin value
      | (_, _, _, moniker, identity, website, details) =>
        .description ⟨moniker, identity, website, details⟩)
    (by rintro (value | value | value) <;> rfl)

/-- Records by their fields, addresses and keys by their bytes. -/
def plainEncoding : Encoding where
  marshalJSON := (Wire.string.pair Field.wire).list.put
  mustBech32ifyAcc := id
  mustBech32ifyVal := id
  mustBech32ifyValPub := id
  marshalJSON_injective doc doc' h := by
    have hdecode := congrArg (Wire.string.pair Field.wire).list.decode h
    rwa [Wire.decode_put, Wire.decode_put, Option.some.injEq] at hdecode
  mustBech32ifyAcc_injective := Function.injective_id
  mustBech32ifyVal_injective := Function.injective_id
  mustBech32ifyValPub_injective := Function.injective_id

/-- A message that gives up shares. -/
def giveUp (shares : ℚ) : Msg := .beginUnbonding ⟨[1], [2], shares⟩

theorem signBytes_binds_iff_giveUp :
    (giveUp (1 / 2)).getSignBytes plainEncoding ≠ (giveUp 1).getSignBytes plainEncoding := by
  have htype : (giveUp (1 / 2)).SameType (giveUp 1) := trivial
  intro hbytes
  have hsame := (signBytes_binds_iff plainEncoding htype).mpr not_false hbytes
  norm_num [giveUp] at hsame

/-- A message that creates a validator from this many coins. -/
def createFrom (amount : ℤ) : MsgCreateValidator where
  description := ⟨"moniker", "", "", ""⟩
  validatorAddr := [1]
  pubKey := [101]
  selfDelegation := ⟨"steak", amount⟩

/-- The signature on a self-delegation of one coin is also one on a thousand coins. -/
theorem create_signs_no_amount :
    (createFrom 1).validateBasic = .ok () ∧ (createFrom 1000).validateBasic = .ok () ∧
      Msg.getSignBytes plainEncoding (.createValidator (createFrom 1)) =
        Msg.getSignBytes plainEncoding (.createValidator (createFrom 1000)) ∧
      Msg.createValidator (createFrom 1) ≠ .createValidator (createFrom 1000) := by
  refine ⟨by decide, by decide, rfl, ?_⟩
  intro hsame
  have hamount := congrArg (fun msg => msg.selfDelegation.amount)
    (Msg.createValidator.inj hsame)
  exact absurd hamount (by decide)

end Tepleton.Stake
