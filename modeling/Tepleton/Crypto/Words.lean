import Tepleton.Crypto.HdPath

/-!
# Keys as phrases: crypto/keys/words

A key with its CRC-32 behind it is read as one number and written in base 2048, lowest digit first,
with a word of a bank for each digit.  Some numbers of words are the right one for two numbers of
bytes.  The decoder then tries the larger one and, if the checksum does not match, drops the first
byte and tries again.

That is right for what the encoder has written (`words_round_trip`): the first byte is zero then, and
a zero byte in front changes the checksum.  It is not for other phrases, as the byte that is dropped
is not looked at (`phrase_canonical_iff`).
-/

namespace Tepleton.Words

open Lib Hd

/-! ## The code -/

/-- The step of a CRC-32 for one byte.  `hash/crc32` starts with all ones and inverts the result. -/
structure Crc32 where
  step : Byte → BitVec 32 → BitVec 32
  step_injective (b : Byte) : Function.Injective (step b)
  step_zero_ne : step 0 (~~~0) ≠ ~~~0

/-- `NewCodec` demands 2048 words, and `GetIndex` that they are different. -/
structure Bank where
  words : Fin 2048 → String
  words_injective : Function.Injective words

inductive WordError
  | noWords
  | unrecognizedWord (word : String)
  | invalidData
  | inputTooShort
  | checksumDoesntMatch
  deriving DecidableEq, Repr

variable (crc : Crc32) (bank : Bank)

def Crc32.checksum (data : Bytes) : ℕ :=
  (~~~data.foldl (fun register b => crc.step b register) (~~~0)).toNat

/-- The last bytes of a number, the most significant one first. -/
def putBytes (width n : ℕ) : Bytes := (bigEndian 256 width n).map toByte

def addECC (input : Bytes) : Bytes := input ++ putBytes 4 (crc.checksum input)

def checkECC (input : Bytes) : Except WordError Bytes :=
  if input.length ≤ 4 then .error .inputTooShort
  else if setBytes (input.drop (input.length - 4)) ≠
      crc.checksum (input.take (input.length - 4)) then .error .checksumDoesntMatch
  else .ok (input.take (input.length - 4))

def wordlenFromBytes (numBytes : ℕ) : ℕ := (8 * numBytes + 10) / 11

/-- The number of bytes for so many words, and whether one byte less is possible too. -/
def bytelenFromWords (numWords : ℕ) : ℕ × Bool :=
  (11 * numWords / 8, wordlenFromBytes (11 * numWords / 8 - 1) == numWords)

def getIndex (word : String) : Except WordError (Fin 2048) :=
  match (List.finRange 2048).find? fun i => bank.words i = word with
  | none => .error (.unrecognizedWord word)
  | some i => .ok i

/-- The loop of `BytesToWords`. -/
def toWords (nData : ℕ) : ℕ → Except WordError (List String)
  | 0 => .ok []
  | n + 1 => do
    let w := bank.words (Fin.ofNat 2048 nData)
    let _ ← getIndex bank w
    return w :: (← toWords (nData / 2048) n)

def bytesToWords (raw : Bytes) : Except WordError (List String) :=
  let data := addECC crc raw
  toWords bank (setBytes data) (wordlenFromBytes data.length)

/-- The loop of `WordsToBytes`, from the last word to the first. -/
def phraseNumber : List String → Except WordError ℕ
  | [] => .ok 0
  | word :: words => do
    let nData ← phraseNumber words
    let rem ← getIndex bank word
    return nData * 2048 + rem.val

/-- `WordsToBytes` from the number of the phrase on. -/
def fromNumber (numWords nData : ℕ) : Except WordError Bytes :=
  let (outLen, flex) := bytelenFromWords numWords
  if 256 ^ outLen ≤ nData then .error .invalidData
  else
    match checkECC crc (putBytes outLen nData) with
    | .ok output => .ok output
    | .error err => if flex then checkECC crc (putBytes outLen nData).tail else .error err

def wordsToBytes (words : List String) : Except WordError Bytes :=
  if words = [] then .error .noWords
  else do
    let nData ← phraseNumber bank words
    fromNumber crc words.length nData

/-! ## Numbers and bytes -/

@[simp] theorem length_putBytes (width n : ℕ) : (putBytes width n).length = width := by
  simp [putBytes]

theorem setBytes_cons (b : Byte) (bytes : Bytes) :
    setBytes (b :: bytes) = b.val * 256 ^ bytes.length + setBytes bytes := by
  simp [setBytes, Nat.ofDigits_append]
  ring

theorem setBytes_lt (bytes : Bytes) : setBytes bytes < 256 ^ bytes.length := by
  induction bytes with
  | nil => simp [setBytes]
  | cons b bytes ih =>
    have hb : b.val + 1 ≤ 256 := b.isLt
    rw [setBytes_cons, List.length_cons, pow_succ']
    calc b.val * 256 ^ bytes.length + setBytes bytes
        < b.val * 256 ^ bytes.length + 256 ^ bytes.length := by omega
      _ = (b.val + 1) * 256 ^ bytes.length := by ring
      _ ≤ 256 * 256 ^ bytes.length := Nat.mul_le_mul_right _ hb

theorem setBytes_putBytes (width n : ℕ) : setBytes (putBytes width n) = n % 256 ^ width := by
  induction width with
  | zero => simp [putBytes, bigEndian, setBytes, Nat.mod_one]
  | succ width ih =>
    have hcons : putBytes (width + 1) n = toByte (n / 256 ^ width % 256) :: putBytes width n := rfl
    have hbyte : (toByte (n / 256 ^ width % 256)).val = n / 256 ^ width % 256 :=
      Nat.mod_eq_of_lt (Nat.mod_lt _ (by norm_num))
    rw [hcons, setBytes_cons, ih, length_putBytes, hbyte, Nat.mod_pow_succ]
    ring

theorem setBytes_injective {bytes bytes' : Bytes} (hlength : bytes.length = bytes'.length)
    (h : setBytes bytes = setBytes bytes') : bytes = bytes' := by
  induction bytes generalizing bytes' with
  | nil => exact (List.length_eq_zero_iff.mp hlength.symm).symm
  | cons b bytes ih =>
    obtain ⟨b', rest, rfl⟩ := List.exists_cons_of_length_eq_add_one hlength.symm
    have hrest : bytes.length = rest.length := Nat.succ.inj hlength
    have hlt := setBytes_lt bytes
    have hlt' := setBytes_lt rest
    rw [setBytes_cons, setBytes_cons, ← hrest] at h
    rw [← hrest] at hlt'
    have hpos : 0 < 256 ^ bytes.length := by positivity
    have hhead : b = b' := by
      refine Fin.ext ?_
      have hdiv := congrArg (· / 256 ^ bytes.length) h
      simpa [Nat.add_div_of_dvd_right, Nat.mul_div_cancel _ hpos, Nat.div_eq_of_lt hlt,
        Nat.div_eq_of_lt hlt'] using hdiv
    subst hhead
    rw [ih hrest (Nat.add_left_cancel h)]

theorem putBytes_setBytes (bytes : Bytes) : putBytes bytes.length (setBytes bytes) = bytes := by
  refine setBytes_injective (by simp) ?_
  rw [setBytes_putBytes, Nat.mod_eq_of_lt (setBytes_lt bytes)]

theorem putBytes_succ_of_lt {width n : ℕ} (h : n < 256 ^ width) :
    putBytes (width + 1) n = 0 :: putBytes width n := by
  refine setBytes_injective (by simp) ?_
  rw [setBytes_cons, setBytes_putBytes, setBytes_putBytes, Nat.mod_eq_of_lt h,
    Nat.mod_eq_of_lt (h.trans (Nat.pow_lt_pow_right (by norm_num) (Nat.lt_succ_self _)))]
  simp

theorem tail_putBytes (width n : ℕ) : (putBytes (width + 1) n).tail = putBytes width n := rfl

/-! ## The checksum -/

variable {crc bank} {raw bytes : Bytes}

theorem checksum_lt (raw : Bytes) : crc.checksum raw < 256 ^ 4 := by
  rw [show 256 ^ 4 = 2 ^ 32 by norm_num]
  exact BitVec.isLt _

@[simp] theorem length_addECC : (addECC crc raw).length = raw.length + 4 := by simp [addECC]

/-- What passes the check is what has been given a checksum, if that was not empty. -/
theorem checkECC_eq_ok_iff : checkECC crc bytes = .ok raw ↔ raw ≠ [] ∧ bytes = addECC crc raw := by
  constructor
  · intro h
    unfold checkECC at h
    split_ifs at h with hshort hsum
    obtain rfl := Except.ok.inj h
    have hlength : (bytes.take (bytes.length - 4)).length = bytes.length - 4 := by simp
    have hcheck : (bytes.drop (bytes.length - 4)).length = 4 := by simp; omega
    refine ⟨List.ne_nil_of_length_pos (by omega), ?_⟩
    rw [addECC, ← not_not.mp hsum]
    have hput := putBytes_setBytes (bytes.drop (bytes.length - 4))
    rw [hcheck] at hput
    rw [hput, List.take_append_drop]
  · rintro ⟨hraw, rfl⟩
    have hpos := List.length_pos_of_ne_nil hraw
    unfold checkECC
    rw [length_addECC, Nat.add_sub_cancel, if_neg (by omega), addECC, List.take_left, List.drop_left,
      setBytes_putBytes, Nat.mod_eq_of_lt (checksum_lt raw), if_neg (not_not.mpr rfl)]

theorem foldl_step_injective (data : Bytes) :
    Function.Injective fun register => data.foldl (fun register b => crc.step b register) register := by
  induction data with
  | nil => exact fun _ _ h => h
  | cons b data ih => exact ih.comp (crc.step_injective b)

/-- A zero byte in front changes the checksum. -/
theorem checksum_zero_cons (raw : Bytes) : crc.checksum (0 :: raw) ≠ crc.checksum raw := by
  intro h
  have hregister := BitVec.not_inj.mp (BitVec.eq_of_toNat_eq h)
  exact crc.step_zero_ne (foldl_step_injective raw hregister)

theorem checkECC_zero_cons (raw : Bytes) : ∃ err, checkECC crc (0 :: addECC crc raw) = .error err := by
  cases h : checkECC crc (0 :: addECC crc raw) with
  | error err => exact ⟨err, rfl⟩
  | ok other =>
    obtain ⟨-, heq⟩ := checkECC_eq_ok_iff.mp h
    have hlength := congrArg List.length heq
    rw [List.length_cons, length_addECC, length_addECC] at hlength
    obtain ⟨hother, hsum⟩ := List.append_inj (show (0 :: raw) ++ _ = other ++ _ from heq) (by simp; omega)
    subst hother
    have hsums := congrArg setBytes hsum
    rw [setBytes_putBytes, setBytes_putBytes, Nat.mod_eq_of_lt (checksum_lt _),
      Nat.mod_eq_of_lt (checksum_lt _)] at hsums
    exact absurd hsums.symm (checksum_zero_cons raw)

/-! ## Phrases -/

/-- The number that a phrase stands for, by the indices of its words. -/
def value (digits : List (Fin 2048)) : ℕ := Nat.ofDigits 2048 (digits.map Fin.val)

/-- The lowest digits of a number, the lowest one first. -/
def lowDigits (n : ℕ) : ℕ → List (Fin 2048)
  | 0 => []
  | count + 1 => Fin.ofNat 2048 n :: lowDigits (n / 2048) count

variable {digits : List (Fin 2048)} {words : List String}

theorem value_cons (d : Fin 2048) (digits : List (Fin 2048)) :
    value (d :: digits) = d.val + 2048 * value digits := by
  simp [value, Nat.ofDigits_cons]

@[simp] theorem length_lowDigits (n count : ℕ) : (lowDigits n count).length = count := by
  induction count generalizing n with
  | zero => rfl
  | succ count ih => simp [lowDigits, ih]

theorem lowDigits_value (digits : List (Fin 2048)) : lowDigits (value digits) digits.length = digits := by
  induction digits with
  | nil => rfl
  | cons d digits ih =>
    have hd := d.isLt
    have hrest : (d.val + 2048 * value digits) / 2048 = value digits := by omega
    have hfirst : Fin.ofNat 2048 (d.val + 2048 * value digits) = d := Fin.ext (by simp)
    rw [List.length_cons, lowDigits, value_cons, hrest, ih, hfirst]

theorem value_lowDigits (n count : ℕ) : value (lowDigits n count) = n % 2048 ^ count := by
  induction count generalizing n with
  | zero => simp [lowDigits, value, Nat.mod_one]
  | succ count ih =>
    rw [lowDigits, value_cons, ih, pow_succ', Nat.mod_mul, Fin.val_ofNat]

theorem getIndex_eq_ok_iff {word : String} {i : Fin 2048} :
    getIndex bank word = .ok i ↔ bank.words i = word := by
  unfold getIndex
  cases hfind : (List.finRange 2048).find? fun i => bank.words i = word with
  | none =>
    have hnone := List.find?_eq_none.mp hfind i (List.mem_finRange i)
    simpa using hnone
  | some j =>
    have hj : bank.words j = word := by simpa using List.find?_some hfind
    refine ⟨fun h => ?_, fun h => ?_⟩
    · cases h
      exact hj
    · rw [bank.words_injective (h.trans hj.symm)]

theorem toWords_eq (n count : ℕ) : toWords bank n count = .ok ((lowDigits n count).map bank.words) := by
  induction count generalizing n with
  | zero => rfl
  | succ count ih =>
    rw [toWords, getIndex_eq_ok_iff.mpr rfl, ih]
    rfl

theorem bytesToWords_eq (raw : Bytes) : bytesToWords crc bank raw =
    .ok ((lowDigits (setBytes (addECC crc raw)) (wordlenFromBytes (raw.length + 4))).map bank.words) := by
  rw [bytesToWords, toWords_eq, length_addECC]

theorem phraseNumber_eq_ok_iff {n : ℕ} :
    phraseNumber bank words = .ok n ↔ ∃ digits, words = digits.map bank.words ∧ n = value digits := by
  induction words generalizing n with
  | nil =>
    constructor
    · intro h
      cases h
      exact ⟨[], rfl, rfl⟩
    · rintro ⟨digits, hwords, rfl⟩
      obtain rfl : digits = [] := by simpa using hwords.symm
      rfl
  | cons word words ih =>
    constructor
    · intro h
      rw [phraseNumber] at h
      cases hrest : phraseNumber bank words with
      | error err =>
        rw [hrest] at h
        cases h
      | ok m =>
        rw [hrest] at h
        cases hword : getIndex bank word with
        | error err =>
          simp only [hword, bind, Except.bind] at h
          cases h
        | ok d =>
          simp only [hword, bind, Except.bind, pure, Except.pure] at h
          cases h
          obtain ⟨digits, rfl, rfl⟩ := ih.mp hrest
          refine ⟨d :: digits, by rw [List.map_cons, getIndex_eq_ok_iff.mp hword], ?_⟩
          rw [value_cons]
          ring
    · rintro ⟨digits, hwords, rfl⟩
      cases digits with
      | nil => simp at hwords
      | cons d digits =>
        obtain ⟨rfl, rfl⟩ := List.cons.inj hwords
        rw [phraseNumber, ih.mpr ⟨digits, rfl, rfl⟩, getIndex_eq_ok_iff.mpr rfl, value_cons]
        simp only [bind, Except.bind, pure, Except.pure]
        rw [add_comm, mul_comm]

theorem wordsToBytes_map (hdigits : digits ≠ []) : wordsToBytes crc bank (digits.map bank.words) =
    fromNumber crc digits.length (value digits) := by
  rw [wordsToBytes, if_neg (by simpa using hdigits),
    phraseNumber_eq_ok_iff.mpr ⟨digits, rfl, rfl⟩, List.length_map]
  rfl

/-! ## From bytes to words and back -/

/-- The number of words determines the number of bytes up to one. -/
theorem bytelen_of_wordlen (n : ℕ) :
    (11 * wordlenFromBytes n / 8 = n ∨ 11 * wordlenFromBytes n / 8 = n + 1) ∧
      8 * n ≤ 11 * wordlenFromBytes n := by
  unfold wordlenFromBytes
  omega

theorem wordlen_of_bytelen (numWords : ℕ) : wordlenFromBytes (11 * numWords / 8) = numWords := by
  unfold wordlenFromBytes
  omega

theorem bytes_le_words {n count : ℕ} (h : 8 * n ≤ 11 * count) : 256 ^ n ≤ 2048 ^ count := by
  have h256 : (256 : ℕ) = 2 ^ 8 := by norm_num
  have h2048 : (2048 : ℕ) = 2 ^ 11 := by norm_num
  rw [h256, h2048, ← pow_mul, ← pow_mul]
  exact Nat.pow_le_pow_right (by norm_num) h

theorem fromNumber_encoded (hraw : raw ≠ []) :
    fromNumber crc (wordlenFromBytes (raw.length + 4)) (setBytes (addECC crc raw)) = .ok raw := by
  have hlt := setBytes_lt (addECC crc raw)
  have hput := putBytes_setBytes (addECC crc raw)
  have hcheck : checkECC crc (addECC crc raw) = .ok raw := checkECC_eq_ok_iff.mpr ⟨hraw, rfl⟩
  rw [length_addECC] at hlt hput
  obtain ⟨hlen | hlen, -⟩ := bytelen_of_wordlen (raw.length + 4)
  · simp only [fromNumber, bytelenFromWords, hlen, if_neg (not_le.mpr hlt), hput, hcheck]
  · -- one byte more is tried first, and the check fails because of the zero in front
    have hlt' : setBytes (addECC crc raw) < 256 ^ (raw.length + 4 + 1) :=
      hlt.trans (Nat.pow_lt_pow_right (by norm_num) (Nat.lt_succ_self _))
    obtain ⟨err, herr⟩ := @checkECC_zero_cons crc raw
    simp only [fromNumber, bytelenFromWords, hlen, if_neg (not_le.mpr hlt'),
      putBytes_succ_of_lt hlt, hput, herr, Nat.add_sub_cancel, beq_self_eq_true, if_true,
      List.tail_cons, hcheck]

/-- What has been encoded is decoded again. -/
theorem words_round_trip (crc : Crc32) (bank : Bank) (hraw : raw ≠ []) :
    (bytesToWords crc bank raw >>= wordsToBytes crc bank) = .ok raw := by
  have hfits : setBytes (addECC crc raw) < 2048 ^ wordlenFromBytes (raw.length + 4) := by
    have hlt := setBytes_lt (addECC crc raw)
    rw [length_addECC] at hlt
    exact hlt.trans_le (bytes_le_words (bytelen_of_wordlen _).2)
  have hne : lowDigits (setBytes (addECC crc raw)) (wordlenFromBytes (raw.length + 4)) ≠ [] := by
    refine List.ne_nil_of_length_pos ?_
    rw [length_lowDigits, wordlenFromBytes]
    omega
  rw [bytesToWords_eq]
  change wordsToBytes crc bank _ = _
  rw [wordsToBytes_map hne, length_lowDigits, value_lowDigits, Nat.mod_eq_of_lt hfits,
    fromNumber_encoded hraw]

/-- The CRC-32 of IEEE for one bit, with the polynomial in reversed order. -/
def halfStep (register : BitVec 32) : BitVec 32 :=
  if register.getLsbD 0 then register >>> 1 ^^^ 0xEDB88320 else register >>> 1

/-- The highest bit of the result is the lowest one of the register, as the polynomial has it. -/
theorem halfStep_injective : Function.Injective halfStep := by
  have hhigh : ∀ register, (halfStep register).getLsbD 31 = register.getLsbD 0 := by
    intro register
    unfold halfStep
    split_ifs with hlow
    · rw [BitVec.getLsbD_xor, BitVec.getLsbD_ushiftRight, hlow, BitVec.getLsbD_of_ge _ _ (by norm_num)]
      rfl
    · rw [BitVec.getLsbD_ushiftRight, BitVec.getLsbD_of_ge _ _ (by norm_num)]
      simpa using hlow
  intro register register' h
  have hlow : register.getLsbD 0 = register'.getLsbD 0 := by rw [← hhigh, ← hhigh, h]
  have hshift : register >>> 1 = register' >>> 1 := by
    unfold halfStep at h
    rw [hlow] at h
    split_ifs at h
    · exact (BitVec.xor_left_inj _).mp h
    · exact h
  refine BitVec.eq_of_getLsbD_eq fun i hi => ?_
  cases i with
  | zero => exact hlow
  | succ i =>
    have hbit := congrArg (fun bits => bits.getLsbD i) hshift
    simpa [BitVec.getLsbD_ushiftRight, add_comm] using hbit

/-- `crc32.IEEE`, bit by bit instead of with a table. -/
def ieee : Crc32 where
  step b register := halfStep^[8] (register ^^^ BitVec.ofNat 32 b.val)
  step_injective b := (halfStep_injective.iterate 8).comp fun _ _ h => (BitVec.xor_left_inj _).mp h
  step_zero_ne := by decide

def unaryBank : Bank where
  words i := String.ofList (List.replicate i.val 'a')
  words_injective i j h := by
    have hlength := congrArg String.length h
    exact Fin.ext (by simpa using hlength)

theorem words_round_trip_leading_zero :
    (bytesToWords ieee unaryBank [0, 7, 7] >>= wordsToBytes ieee unaryBank) = .ok [0, 7, 7] :=
  words_round_trip ieee unaryBank (by decide)

/-! ## Accepted phrases -/

/-- If the bytes of a phrase are a key with its checksum, the key is written as that phrase if the
number of words is right and no other byte was left out. -/
theorem bytesToWords_eq_ok_iff {len : ℕ} (heq : putBytes len (value digits) = addECC crc raw) :
    bytesToWords crc bank raw = .ok (digits.map bank.words) ↔
      wordlenFromBytes len = digits.length ∧ value digits < 256 ^ len := by
  have hlength := congrArg List.length heq
  have hvalue := congrArg setBytes heq
  rw [length_putBytes, length_addECC] at hlength
  rw [setBytes_putBytes] at hvalue
  rw [bytesToWords_eq, ← hvalue, ← hlength, Except.ok.injEq,
    (List.map_injective_iff.mpr bank.words_injective).eq_iff]
  constructor
  · intro h
    have hcount := congrArg List.length h
    rw [length_lowDigits] at hcount
    refine ⟨hcount, ?_⟩
    have hdigits := congrArg value h
    rw [value_lowDigits] at hdigits
    calc value digits = value digits % 256 ^ len % 2048 ^ wordlenFromBytes len := hdigits.symm
      _ ≤ value digits % 256 ^ len := Nat.mod_le _ _
      _ < 256 ^ len := Nat.mod_lt _ (by positivity)
  · rintro ⟨hcount, hlt⟩
    rw [hcount, Nat.mod_eq_of_lt hlt, lowDigits_value]

/-- An accepted phrase is the one that its key is written as if its bytes at full length pass the
check, or if the first of them is zero. -/
theorem phrase_canonical_iff (crc : Crc32) (bank : Bank) {n : ℕ}
    (haccepted : wordsToBytes crc bank words = .ok raw) (hn : phraseNumber bank words = .ok n) :
    bytesToWords crc bank raw = .ok words ↔
      (∃ output, checkECC crc (putBytes (bytelenFromWords words.length).1 n) = .ok output) ∨
        n < 256 ^ ((bytelenFromWords words.length).1 - 1) := by
  obtain ⟨digits, rfl, rfl⟩ := phraseNumber_eq_ok_iff.mp hn
  have hne : digits ≠ [] := by
    rintro rfl
    cases haccepted
  have hpos := List.length_pos_of_ne_nil hne
  rw [wordsToBytes_map hne] at haccepted
  rw [List.length_map]
  obtain ⟨len, hlen⟩ : ∃ len, 11 * digits.length / 8 = len + 1 := ⟨11 * digits.length / 8 - 1, by omega⟩
  simp only [fromNumber, bytelenFromWords, hlen, Nat.add_sub_cancel, tail_putBytes] at haccepted ⊢
  have hsmall : value digits < 256 ^ (len + 1) := by
    by_contra hlarge
    rw [if_pos (not_lt.mp hlarge)] at haccepted
    cases haccepted
  rw [if_neg (not_le.mpr hsmall)] at haccepted
  cases hfull : checkECC crc (putBytes (len + 1) (value digits)) with
  | ok output =>
    rw [hfull] at haccepted
    obtain rfl := Except.ok.inj haccepted
    obtain ⟨-, heq⟩ := checkECC_eq_ok_iff.mp hfull
    refine iff_of_true ?_ (.inl ⟨output, rfl⟩)
    rw [bytesToWords_eq_ok_iff heq, ← hlen, wordlen_of_bytelen, hlen]
    exact ⟨rfl, hsmall⟩
  | error err =>
    rw [hfull] at haccepted
    dsimp only at haccepted
    split_ifs at haccepted with hflex
    obtain ⟨-, heq⟩ := checkECC_eq_ok_iff.mp haccepted
    rw [bytesToWords_eq_ok_iff heq, and_iff_right (beq_iff_eq.mp hflex)]
    simp

/-- The phrase for three bytes with the highest word changed: its number has one more byte. -/
def typo : List (Fin 2048) := lowDigits (setBytes (addECC ieee [7, 7, 7]) + 256 ^ 7) 6

theorem typo_accepted :
    wordsToBytes ieee unaryBank (typo.map unaryBank.words) = .ok [7, 7, 7] := by
  rw [wordsToBytes_map (by decide +kernel)]
  decide +kernel

theorem phrase_canonical_iff_typo :
    bytesToWords ieee unaryBank [7, 7, 7] = .ok (typo.map unaryBank.words) ↔
      (∃ output, checkECC ieee
        (putBytes (bytelenFromWords (typo.map unaryBank.words).length).1 (value typo)) = .ok output) ∨
        value typo < 256 ^ ((bytelenFromWords (typo.map unaryBank.words).length).1 - 1) :=
  phrase_canonical_iff ieee unaryBank typo_accepted (phraseNumber_eq_ok_iff.mpr ⟨typo, rfl, rfl⟩)

/-- The phrase with the changed word stands for the same key as the right one. -/
theorem typo_ignored : ∃ phrase phrase' : List String, phrase ≠ phrase' ∧
    bytesToWords ieee unaryBank [7, 7, 7] = .ok phrase ∧
      wordsToBytes ieee unaryBank phrase = .ok [7, 7, 7] ∧
      wordsToBytes ieee unaryBank phrase' = .ok [7, 7, 7] := by
  have hright : lowDigits (setBytes (addECC ieee [7, 7, 7])) 6 ≠ typo := by decide +kernel
  refine ⟨_, _, (List.map_injective_iff.mpr unaryBank.words_injective).ne hright, bytesToWords_eq _, ?_,
    typo_accepted⟩
  rw [wordsToBytes_map (by decide +kernel)]
  decide +kernel

end Tepleton.Words
