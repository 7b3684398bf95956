import Tepleton.Types.Strconv

/-!
# Paths of hierarchical deterministic wallets: crypto/keys/hd/hdpath.go

A path lists child derivations, separated by slashes; an apostrophe marks a hardened one, whose
index is raised by `2 ^ 31`.  `followParts` is the loop over the parts of a path.  It slices off the
last byte of a part before it knows that there is one, takes every text that `Atoi` takes and
narrows the number to 32 bits without a check.  `path_complies_iff` says which paths are dealt with
as they should be all the same.

The public key of a private key, HMAC-SHA512 and the order of the group are third-party code and
parameters here.
-/

namespace Tepleton.Hd

open Lib

/-- A `[32]byte`. -/
abbrev Key := { bytes : Bytes // bytes.length = 32 }

/-- What the derivation takes from other packages. -/
structure Primitives where
  pubKey : Key → Bytes
  /-- The two halves of the SHA512 HMAC of key and data. -/
  i64 : Bytes → Bytes → Key × Key
  order : ℕ

def setBytes (bytes : Bytes) : ℕ := Nat.ofDigits 256 (bytes.reverse.map Fin.val)

variable (prims : Primitives)

/-- Modular big endian addition. -/
def addScalars (a b : Bytes) : Key :=
  ⟨(bigEndian 256 32 ((setBytes a + setBytes b) % prims.order)).map toByte, by simp⟩

def uint32ToBytes (i : ℕ) : Bytes := (bigEndian 256 4 i).map toByte

/-- The private key and the chain code of the child with this number, from its own data. -/
def childKey (key chainCode : Key) (data : Bytes) (number : ℕ) : Key × Key :=
  let halves := prims.i64 chainCode (data ++ uint32ToBytes number)
  (addScalars prims key halves.1, halves.2)

def derivePrivateKey (key chainCode : Key) (index : ℕ) (harden : Bool) : Key × Key :=
  if harden then childKey prims key chainCode (0 :: key.1) (index ||| 0x80000000)
  else childKey prims key chainCode (prims.pubKey key) index

/-- How `DerivePrivateKeyForPath` fails: with a run-time panic or with one of its two errors. -/
inductive PathFault
  | sliceBounds
  | invalid (err : NumError)
  | negativeOrTooLarge
  deriving DecidableEq, Repr

/-- Whether the last byte is an apostrophe. -/
def harden (part : Bytes) : Bool := part.drop (part.length - 1) == [39]

/-- The part without its apostrophe. -/
def indexText (part : Bytes) : Bytes :=
  if harden part then part.take (part.length - 1) else part

/-- The loop over the parts of the path. -/
def followParts (data chainCode : Key) : List Bytes → Except PathFault Key
  | [] => .ok data
  | part :: parts =>
    -- part[len(part)-1:] has the bound -1 on an empty part
    if part = [] then .error .sliceBounds
    else
      match atoi (indexText part) with
      | .error err => .error (.invalid err)
      | .ok idx =>
        if idx < 0 then .error .negativeOrTooLarge
        else
          let child := derivePrivateKey prims data chainCode (idx.toNat % 2 ^ 32) (harden part)
          followParts child.1 child.2 parts

def derivePrivateKeyForPath (key chainCode : Key) (path : Bytes) : Except PathFault Key :=
  followParts prims key chainCode (path.splitOn 47)

/-! ## What a path says -/

/-- The part is a decimal index below `2 ^ 31`, with an apostrophe if the step is hardened. -/
def PartSays (part : Bytes) (step : ℕ × Bool) : Prop :=
  ∃ text, IsNumeral text ∧ parseDecimal text = step.1 ∧ step.1 < 2 ^ 31 ∧
    part = if step.2 then text ++ [39] else text

/-- The path lists these steps. -/
def PathSays (path : Bytes) (steps : List (ℕ × Bool)) : Prop :=
  List.Forall₂ PartSays (path.splitOn 47) steps

/-- The child derivations in order, hardened ones with the index raised by `2 ^ 31`. -/
def follow (key chainCode : Key) : List (ℕ × Bool) → Key
  | [] => key
  | (index, hardened) :: steps =>
    let child :=
      if hardened then childKey prims key chainCode (0 :: key.1) (index + 2 ^ 31)
      else childKey prims key chainCode (prims.pubKey key) index
    follow child.1 child.2 steps

/-- A path that says something is followed, every other one gives an error. -/
def PathComplies (key chainCode : Key) (path : Bytes) : Prop :=
  (∃ steps, PathSays path steps ∧
      derivePrivateKeyForPath prims key chainCode path = .ok (follow prims key chainCode steps)) ∨
    (¬ ∃ steps, PathSays path steps) ∧
      ∃ fault, derivePrivateKeyForPath prims key chainCode path = .error fault ∧
        fault ≠ .sliceBounds

/-! ## The loop -/

variable {prims} {part : Bytes} {parts : List Bytes} {step : ℕ × Bool}

theorem PartSays.read (h : PartSays part step) :
    part ≠ [] ∧ harden part = step.2 ∧ atoi (indexText part) = .ok (step.1 : ℤ) := by
  obtain ⟨index, hardened⟩ := step
  obtain ⟨text, hnumeral, rfl, hsmall, rfl⟩ := h
  dsimp only at hsmall ⊢
  have hread : atoi text = .ok (parseDecimal text : ℤ) := by
    rw [atoi_of_setString (setString_of_isNumeral hnumeral), if_pos (by omega)]
  cases hardened with
  | true =>
    have hharden : harden (text ++ [39]) = true := by simp [harden]
    rw [if_pos rfl]
    refine ⟨by simp, hharden, ?_⟩
    rw [indexText, if_pos hharden, List.length_append, List.length_singleton, Nat.add_sub_cancel,
      List.take_left, hread]
  | false =>
    have hharden : harden text = false := by
      obtain ⟨front, last, rfl⟩ := (List.eq_nil_or_concat' text).resolve_left hnumeral.1
      have hlast : IsDigit last := hnumeral.2 last (by simp)
      have hne : last ≠ 39 := by
        rintro rfl
        revert hlast
        decide
      simpa [harden] using hne
    rw [if_neg Bool.false_ne_true]
    refine ⟨hnumeral.1, hharden, ?_⟩
    rw [indexText, hharden, if_neg Bool.false_ne_true, hread]

theorem derivePrivateKey_hardened (key chainCode : Key) {index : ℕ} (h : index < 2 ^ 31) :
    derivePrivateKey prims key chainCode index true =
      childKey prims key chainCode (0 :: key.1) (index + 2 ^ 31) := by
  have hor : index ||| 0x80000000 = index + 2 ^ 31 := by
    have hbits := Nat.two_pow_add_eq_or_of_lt h 1
    rw [mul_one] at hbits
    rw [add_comm, hbits, Nat.lor_comm, show (0x80000000 : ℕ) = 2 ^ 31 by norm_num]
  rw [derivePrivateKey, if_pos rfl, hor]

theorem followParts_of_listed {steps : List (ℕ × Bool)} (h : List.Forall₂ PartSays parts steps)
    (key chainCode : Key) :
    followParts prims key chainCode parts = .ok (follow prims key chainCode steps) := by
  induction h generalizing key chainCode with
  | nil => rfl
  | @cons part step parts steps hpart _ ih =>
    obtain ⟨hne, hharden, hread⟩ := hpart.read
    obtain ⟨index, hardened⟩ := step
    obtain ⟨_, _, _, hsmall, _⟩ := hpart
    dsimp only at hsmall hharden hread
    have hnarrow : (index : ℤ).toNat % 2 ^ 32 = index := by omega
    rw [followParts, if_neg hne, hread]
    dsimp only
    rw [if_neg (by omega), hnarrow, hharden, follow]
    cases hardened with
    | true => rw [derivePrivateKey_hardened key chainCode hsmall, ih, if_pos rfl]
    | false => rw [derivePrivateKey, if_neg Bool.false_ne_true, ih, if_neg Bool.false_ne_true]

/-- No number that is not negative can be read from the part. -/
def Rejected (part : Bytes) : Prop := ∀ idx, atoi (indexText part) = .ok idx → idx < 0

/-- The loop returns an error if it comes to a part that is rejected before it comes to an empty
one. -/
theorem followParts_error_iff (key chainCode : Key) :
    (∃ fault, followParts prims key chainCode parts = .error fault ∧ fault ≠ .sliceBounds) ↔
      ∃ before part after, parts = before ++ part :: after ∧ [] ∉ before ∧ part ≠ [] ∧
        Rejected part := by
  induction parts generalizing key chainCode with
  | nil => simp [followParts]
  | cons part parts ih =>
    -- either the first part is the one that is rejected, or the rest has one
    have hsplit : (∃ before part' after, part :: parts = before ++ part' :: after ∧ [] ∉ before ∧
        part' ≠ [] ∧ Rejected part') ↔ part ≠ [] ∧ (Rejected part ∨
          ∃ before part' after, parts = before ++ part' :: after ∧ [] ∉ before ∧ part' ≠ [] ∧
            Rejected part') := by
      constructor
      · rintro ⟨before, part', after, heq, hbefore, hne, hrejected⟩
        cases before with
        | nil =>
          obtain ⟨rfl, -⟩ := List.cons.inj heq
          exact ⟨hne, .inl hrejected⟩
        | cons first before =>
          obtain ⟨rfl, hrest⟩ := List.cons.inj heq
          rw [List.mem_cons, not_or] at hbefore
          exact ⟨Ne.symm hbefore.1, .inr ⟨before, part', after, hrest, hbefore.2, hne, hrejected⟩⟩
      · rintro ⟨hne, hrejected | ⟨before, part', after, rfl, hbefore, hne', hrejected⟩⟩
        · exact ⟨[], part, parts, rfl, by simp, hne, hrejected⟩
        · exact ⟨part :: before, part', after, rfl, by simp [hbefore, Ne.symm hne], hne', hrejected⟩
    rw [hsplit, followParts]
    by_cases hne : part = []
    · simp [hne]
    rw [if_neg hne]
    cases hread : atoi (indexText part) with
    | error err => simp [hne, Rejected, hread]
    | ok idx =>
      dsimp only
      by_cases hneg : idx < 0
      · simp [hneg, hne, Rejected, hread]
      · have hnot : ¬ Rejected part := fun hrejected => hneg (hrejected idx hread)
        rw [if_neg hneg, ih]
        simp [hne, hnot]

variable (prims) in
/-- A path is dealt with as it should be if all its parts are indices below `2 ^ 31`, or if it has
a part that `Atoi` rejects or reads as a negative number, with no empty part up to there. -/
theorem path_complies_iff (key chainCode : Key) (path : Bytes) :
    PathComplies prims key chainCode path ↔
      (∃ steps, PathSays path steps) ∨
        ∃ before part after, path.splitOn 47 = before ++ part :: after ∧ [] ∉ before ∧
          part ≠ [] ∧ Rejected part := by
  rw [← @followParts_error_iff prims _ key chainCode]
  constructor
  · rintro (⟨steps, hsays, -⟩ | ⟨-, herror⟩)
    · exact .inl ⟨steps, hsays⟩
    · exact .inr herror
  · rintro (⟨steps, hsays⟩ | herror)
    · exact .inl ⟨steps, hsays, followParts_of_listed hsays key chainCode⟩
    · refine .inr ⟨?_, herror⟩
      rintro ⟨steps, hsays⟩
      obtain ⟨fault, hfault, -⟩ := herror
      rw [followParts_of_listed hsays key chainCode] at hfault
      cases hfault

def zeroKey : Key := ⟨List.replicate 32 0, rfl⟩

def zeros : Primitives where
  pubKey _ := []
  i64 _ _ := (zeroKey, zeroKey)
  order := 1

/-- An empty part stops the program, and an index of `2 ^ 31` is taken for one: the paths `""`,
`"44'//0"` and `"2147483648"`. -/
theorem path_panics_or_overflows :
    derivePrivateKeyForPath zeros zeroKey zeroKey [] = .error .sliceBounds ∧
      derivePrivateKeyForPath zeros zeroKey zeroKey [52, 52, 39, 47, 47, 48] = .error .sliceBounds ∧
      derivePrivateKeyForPath zeros zeroKey zeroKey [50, 49, 52, 55, 52, 56, 51, 54, 52, 56] =
        .ok zeroKey ∧
      ¬ ∃ steps, PathSays [50, 49, 52, 55, 52, 56, 51, 54, 52, 56] steps := by
  refine ⟨by decide +kernel, by decide +kernel, by decide +kernel, ?_⟩
  rintro ⟨steps, hsays⟩
  cases hsays with
  | cons hpart _ =>
    have hvalue : atoi (indexText [50, 49, 52, 55, 52, 56, 51, 54, 52, 56]) = .ok 2147483648 := by
      decide +kernel
    have hindex := Except.ok.inj (hvalue.symm.trans hpart.read.2.2)
    obtain ⟨_, _, _, hsmall, _⟩ := hpart
    omega

end Tepleton.Hd
