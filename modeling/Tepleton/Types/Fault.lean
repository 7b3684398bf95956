import Tepleton.Lib.Run
import Tepleton.Lib.KVStore
import Tepleton.Lib.Wire

/-!
# Byte strings, machine integers and the ways a call can fail

Addresses and public keys are byte strings.  A Go call ends in one of three ways: it returns, it
returns an `sdk.Error`, or it panics; in the last two cases the transaction it belongs to is rolled
back.  `Fault` keeps the two apart because some properties are about one kind of panic only.
-/

namespace Tepleton

open Lib

/-- A Go `byte`. -/
abbrev Byte := Fin 256

/-- A Go `[]byte` used as a value: compared bytewise, a proper prefix first. -/
abbrev Bytes := List Byte

instance transCmp_bytes : Std.TransCmp (LinearOrder.toOrd (α := Bytes)).compare := inferInstance

instance lawfulBEq_bytes : LawfulBEq Bytes := inferInstance

abbrev Address := Bytes

/-- `crypto.PubKey`, identified with its encoding. -/
abbrev PubKey := Bytes

/-- The value an `int64` expression has when the exact value is `x`. -/
def int64 (x : ℤ) : ℤ := x.bmod (2 ^ 64)

/-- The value an `int16` expression has when the exact value is `x`. -/
def int16 (x : ℤ) : ℤ := x.bmod (2 ^ 16)

theorem int64_eq_self {x : ℤ} (hlow : -2 ^ 63 ≤ x) (hhigh : x < 2 ^ 63) : int64 x = x := by
  unfold int64
  rw [Int.bmod_eq_of_le] <;> omega

theorem int64_range (x : ℤ) : -2 ^ 63 ≤ int64 x ∧ int64 x < 2 ^ 63 := by
  have hlow := Int.le_bmod (x := x) (m := 2 ^ 64) (by norm_num)
  have hhigh := Int.bmod_lt (x := x) (m := 2 ^ 64) (by norm_num)
  unfold int64
  omega

theorem exists_int64_eq (x : ℤ) : ∃ k, int64 x = x + 2 ^ 64 * k := by
  refine ⟨-Int.bdiv x (2 ^ 64), ?_⟩
  have hsplit := Int.bmod_add_bdiv x (2 ^ 64)
  rw [Nat.cast_pow, Nat.cast_ofNat] at hsplit
  rw [int64]
  linarith

theorem int64_eq_int64 {x y : ℤ} (k : ℤ) (h : x = y + 2 ^ 64 * k) : int64 x = int64 y := by
  rw [h, int64, int64]
  exact Int.add_mul_bmod_self_left y (2 ^ 64) k

/-- An `sdk.Error`: its code and its text.  The codespace, a number handed to each keeper when the
application is put together, is left out. -/
structure SdkError where
  code : ℕ
  msg : String
  deriving DecidableEq, Repr

/-- The calls of `panic` in the modelled code. -/
inductive Panic
  | divisionByZero
  | intOverflow
  | intOutOfBound
  | int64OutOfBound
  | intDivisionByZero
  | intWithDecimalOutOfBound
  | uintOverflow
  | uintDivisionByZero
  | uintWithDecimalOutOfBound
  | indexOutOfRange
  | looseTokensNegative
  | tokensNegative
  | shouldNotAlreadyBeUnbonded (owner : Address)
  | shouldNotAlreadyBeBonded (owner : Address)
  | validatorRecordNotFound (address : Address)
  | revokedValidatorCannotBeBonded (address : Address)
  | maxValidatorsLessThanBonded
  | nilDereference
  | unmarshalNil
  | negativeSlashFactor
  | slashNonexistentValidator (pubkey : PubKey)
  | slashFutureInfraction (infractionHeight height : ℤ)
  | setRevokedNotFound (pubkey : PubKey) (revoked : Bool)
  | errorUnbondingDelegator (err : SdkError)
  | signingInfoNotFound (address : Address)
  | notImplementedYet
  | cannotDecode
  | shouldNotHappen
  deriving DecidableEq, Repr

/-- Why a call did not return normally. -/
inductive Fault
  | panic (reason : Panic)
  | error (err : SdkError)
  deriving DecidableEq, Repr

/-- The outcome of a call. -/
abbrev Outcome (α : Type) := Except Fault α

end Tepleton
