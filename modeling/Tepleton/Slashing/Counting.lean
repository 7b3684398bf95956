import Tepleton.Lib.Window
import Tepleton.Slashing.Jail

/-!
# Counting reports

The bits of a key are a ring of slots for the reports about it, and the signing info counts the reports
and those in the ring that say the block was signed: `Counted` relates the two to the reports so far,
and every run keeps it (`counted_of_run`).
-/

namespace Tepleton.Slashing

open Lib Stake

/-- `SignedBlocksWindow`, as a number of slots. -/
@[irreducible] def window : ℕ := 40000

theorem window_eq : window = 40000 := by
  unfold window
  rfl

theorem signedBlocksWindow_eq : signedBlocksWindow = (window : ℤ) := by
  rw [window_eq]
  rfl

/-- The reports about a key so far: whether each of them says that the block was signed. -/
def reports (pk : PubKey) (history : List (State × Op)) : List Bool :=
  history.filterMap fun entry =>
    match entry.2 with
    | .signature pubkey _ signed => if pubkey = pk then some signed else none
    | _ => none

@[simp] theorem reports_append (pk : PubKey) (history history' : List (State × Op)) :
    reports pk (history ++ history') = reports pk history ++ reports pk history' :=
  List.filterMap_append

/-! ## Bits -/

namespace Store

theorem getValidatorSigningBitArray_set (s : Store) (a b : Address) (i j : ℤ) (signed : Bool) :
    (s.setValidatorSigningBitArray a i signed).getValidatorSigningBitArray b j =
      if a = b ∧ i = j then signed else s.getValidatorSigningBitArray b j := by
  rw [getValidatorSigningBitArray, setValidatorSigningBitArray, KVStore.getElem?_insert]
  simp only [toLex_inj, Prod.mk.injEq]
  split_ifs <;> rfl

end Store

section Counting

variable {address : PubKey → Address} {pk : PubKey} {flags : List Bool} {s s' : Store}

/-- What the store of the slashing module says about the reports for a key. -/
structure Counted (address : PubKey → Address) (pk : PubKey) (flags : List Bool) (s : Store) :
    Prop where
  info {info : ValidatorSigningInfo} (h : s.getValidatorSigningInfo (address pk) = some info) :
    info.indexOffset = flags.length ∧ info.signedBlocksCounter = (recent window flags).count true
  unseen (h : s.getValidatorSigningInfo (address pk) = none) : flags = []
  bits : Ring window false flags fun i => s.getValidatorSigningBitArray (address pk) i

/-- The number of earlier reports for a key, as the store has it. -/
def offset (address : PubKey → Address) (s : Store) (pk : PubKey) : ℤ :=
  (s.getValidatorSigningInfo (address pk)).elim 0 ValidatorSigningInfo.indexOffset

theorem Counted.offset_eq (h : Counted address pk flags s) :
    offset address s pk = flags.length := by
  rw [offset]
  cases hinfo : s.getValidatorSigningInfo (address pk) with
  | none =>
    rw [h.unseen hinfo]
    rfl
  | some info => exact (h.info hinfo).1

theorem Counted.start (height : ℤ) (h : Counted address pk flags s) :
    let info := (s.getValidatorSigningInfo (address pk)).getD ⟨height, 0, 0, 0⟩
    info.indexOffset = flags.length ∧
      info.signedBlocksCounter = (recent window flags).count true := by
  cases hinfo : s.getValidatorSigningInfo (address pk) with
  | none =>
    rw [h.unseen hinfo]
    exact ⟨rfl, by simp [recent]⟩
  | some info => exact h.info hinfo

theorem Counted.of_same (h : Counted address pk flags s)
    (hinfo : (s'.getValidatorSigningInfo (address pk)).map
        (fun info => (info.indexOffset, info.signedBlocksCounter)) =
      (s.getValidatorSigningInfo (address pk)).map
        fun info => (info.indexOffset, info.signedBlocksCounter))
    (hbits : ∀ i, s'.getValidatorSigningBitArray (address pk) i =
      s.getValidatorSigningBitArray (address pk) i) : Counted address pk flags s' := by
  refine ⟨fun {info'} h' => ?_, fun h' => ?_, h.bits.congr fun i => hbits i⟩
  · rw [h', Option.map_some, eq_comm, Option.map_eq_some_iff] at hinfo
    obtain ⟨info, hget, heq⟩ := hinfo
    obtain ⟨hoffset, hcounter⟩ := Prod.mk.inj heq
    rw [← hoffset, ← hcounter]
    exact h.info hget
  · rw [h', Option.map_none, eq_comm, Option.map_eq_none_iff] at hinfo
    exact h.unseen hinfo

theorem getValidatorSigningBitArray_slot (s : Store) (a : Address) (signed : Bool) (n i : ℕ) :
    (s.setValidatorSigningBitArray a n signed).getValidatorSigningBitArray a i =
      Function.update (fun i : ℕ => s.getValidatorSigningBitArray a i) n signed i := by
  rw [Store.getValidatorSigningBitArray_set, Function.update_apply]
  by_cases hi : i = n
  · rw [if_pos ⟨rfl, by rw [hi]⟩, if_pos hi]
  · rw [if_neg fun h => hi (by exact_mod_cast h.2.symm), if_neg hi]

/-- A report is counted, whatever the size of the window: `info` is the signing info before it. -/
theorem countSignatureIn_counts {W : ℕ} (hW : 0 < W) (hfitsW : (W : ℤ) < 2 ^ 63) {height : ℤ}
    {info : ValidatorSigningInfo}
    (hinfo : (s.getValidatorSigningInfo (address pk)).getD ⟨height, 0, 0, 0⟩ = info)
    (hoffset : info.indexOffset = flags.length)
    (hcounter : info.signedBlocksCounter = (recent W flags).count true)
    (hbits : Ring W false flags fun i => s.getValidatorSigningBitArray (address pk) i)
    (signed : Bool) :
    (countSignatureIn address W height s pk signed).2.indexOffset = int64 (flags.length + 1) ∧
      (countSignatureIn address W height s pk signed).2.signedBlocksCounter =
        (recent W (flags ++ [signed])).count true ∧
      Ring W false (flags ++ [signed]) fun i =>
        (countSignatureIn address W height s pk signed).1.getValidatorSigningBitArray
          (address pk) i := by
  have hindex : (flags.length : ℤ).tmod (W : ℤ) = (flags.length % W : ℕ) := rfl
  have hcount := hbits.count_recent hW signed
  have hbound : (recent W (flags ++ [signed])).count true ≤ W :=
    List.count_le_length.trans (length_recent_le W _)
  have hring := hbits.snoc signed
  simp only [countSignatureIn, hinfo, hoffset, hindex, hcounter]
  split_ifs with hsame hprevious <;> dsimp only
  · rw [hsame, Nat.add_right_cancel_iff] at hcount
    have hkeep := Function.update_eq_self (flags.length % W)
      (fun i : ℕ => s.getValidatorSigningBitArray (address pk) i)
    refine ⟨rfl, by rw [hcount], hring.congr fun i => ?_⟩
    rw [← hsame]
    exact (congrFun hkeep i).symm
  · obtain rfl : signed = false := by
      cases signed
      · rfl
      · exact absurd hprevious hsame
    rw [hprevious, Bool.toNat_true, Bool.toNat_false] at hcount
    refine ⟨rfl, ?_, hring.congr fun i => getValidatorSigningBitArray_slot _ _ _ _ i⟩
    rw [int64_eq_self (by omega) (by omega)]
    omega
  · rw [Bool.not_eq_true] at hprevious
    obtain rfl : signed = true := by
      cases signed
      · exact absurd hprevious hsame
      · rfl
    rw [hprevious, Bool.toNat_true, Bool.toNat_false] at hcount
    refine ⟨rfl, ?_, hring.congr fun i => getValidatorSigningBitArray_slot _ _ _ _ i⟩
    rw [int64_eq_self (by omega) (by omega)]
    omega

theorem Counted.countSignature (h : Counted address pk flags s)
    (hfits : (flags.length : ℤ) + 1 < 2 ^ 63) (height : ℤ) (signed : Bool) :
    (Slashing.countSignature address height s pk signed).2.indexOffset = (flags ++ [signed]).length ∧
      (Slashing.countSignature address height s pk signed).2.signedBlocksCounter =
        (recent window (flags ++ [signed])).count true ∧
      Ring window false (flags ++ [signed]) fun i =>
        (Slashing.countSignature address height s pk signed).1.getValidatorSigningBitArray
          (address pk) i := by
  obtain ⟨hoffset, hcounter⟩ := h.start height
  have hwindow := window_eq
  obtain ⟨hoffset', hcounter', hring⟩ := countSignatureIn_counts (by omega) (by omega) rfl hoffset
    hcounter h.bits signed
  rw [← signedBlocksWindow_eq] at hoffset' hcounter' hring
  refine ⟨hoffset'.trans ?_, hcounter', hring⟩
  rw [int64_eq_self (by omega) hfits, List.length_append]
  rfl

theorem countSignatureIn_of_ne {pubkey : PubKey} (hne : address pubkey ≠ address pk) (W height : ℤ)
    (s : Store) (signed : Bool) (i : ℤ) :
    (countSignatureIn address W height s pubkey signed).1.getValidatorSigningBitArray
      (address pk) i = s.getValidatorSigningBitArray (address pk) i := by
  simp only [countSignatureIn]
  split_ifs
  · rfl
  · rw [Store.getValidatorSigningBitArray_set, if_neg fun h => hne h.1]
  · rw [Store.getValidatorSigningBitArray_set, if_neg fun h => hne h.1]

end Counting

/-! ## Runs -/

/-- The number of reports about a key is an `int64`. -/
def Countable (address : PubKey → Address) (st : State) : Op → Prop
  | .signature pubkey _ _ => offset address st.store pubkey + 1 < 2 ^ 63
  | _ => True

section Step

variable {address : PubKey → Address} {pk : PubKey} {flags : List Bool} {st st' : State} {op : Op}

variable {s s' : Store} {ctx : Ctx} {pubkey : PubKey} {power : ℤ} {signed : Bool}

/-- What a report writes: the bits that are counted and the signing info of the key, in which slashing
and revoking change the end of the jail term and nothing else. -/
theorem handleValidatorSignatureIn_writes {W minSigned : ℤ}
    (h : handleValidatorSignatureIn address W minSigned ctx s pubkey power signed = .ok s') :
    (∃ jailedUntil, s'.getValidatorSigningInfo (address pubkey) =
        some { (countSignatureIn address W ctx.blockHeight s pubkey signed).2 with jailedUntil }) ∧
      s'.signingBits = (countSignatureIn address W ctx.blockHeight s pubkey signed).1.signingBits ∧
      ∀ a, a ≠ address pubkey → s'.getValidatorSigningInfo a = s.getValidatorSigningInfo a := by
  have hinfos := countSignatureIn_signingInfos address W ctx.blockHeight s pubkey signed
  obtain ⟨s₁, signInfo, hcount, hcase⟩ := handleValidatorSignatureIn_eq_ok h
  rw [hcount] at hinfos ⊢
  have hget : ∀ a, s₁.getValidatorSigningInfo a = s.getValidatorSigningInfo a := by
    intro a
    rw [Store.getValidatorSigningInfo, hinfos]
    rfl
  rcases hcase with ⟨-, rfl⟩ | ⟨-, slashed, stake, -, -, rfl⟩
  · refine ⟨⟨signInfo.jailedUntil, ?_⟩, rfl, fun a hne => ?_⟩
    · rw [Store.getValidatorSigningInfo_set, if_pos rfl]
    · rw [Store.getValidatorSigningInfo_set, if_neg hne.symm, hget]
  · refine ⟨⟨int64 (ctx.blockTime + downtimeUnbondDuration), ?_⟩, rfl, fun a hne => ?_⟩
    · rw [Store.getValidatorSigningInfo_set, if_pos rfl]
    · rw [Store.getValidatorSigningInfo_set, if_neg hne.symm]
      exact hget a

theorem handleValidatorSignature_writes
    (h : handleValidatorSignature address ctx s pubkey power signed = .ok s') :
    (∃ jailedUntil, s'.getValidatorSigningInfo (address pubkey) =
        some { (countSignature address ctx.blockHeight s pubkey signed).2 with jailedUntil }) ∧
      s'.signingBits = (countSignature address ctx.blockHeight s pubkey signed).1.signingBits ∧
      ∀ a, a ≠ address pubkey → s'.getValidatorSigningInfo a = s.getValidatorSigningInfo a :=
  handleValidatorSignatureIn_writes h

theorem handleValidatorSignatureIn_of_ne {W minSigned : ℤ}
    (h : handleValidatorSignatureIn address W minSigned ctx s pubkey power signed = .ok s')
    (hne : address pubkey ≠ address pk) :
    s'.getValidatorSigningInfo (address pk) = s.getValidatorSigningInfo (address pk) ∧
      ∀ i, s'.getValidatorSigningBitArray (address pk) i =
        s.getValidatorSigningBitArray (address pk) i := by
  obtain ⟨-, hbits, hother⟩ := handleValidatorSignatureIn_writes h
  refine ⟨hother _ hne.symm, fun i => ?_⟩
  rw [← countSignatureIn_of_ne hne W ctx.blockHeight s signed i, Store.getValidatorSigningBitArray,
    hbits]
  rfl

theorem Counted.signature (hinj : Function.Injective address) (h : Counted address pk flags s)
    (hfits : offset address s pubkey + 1 < 2 ^ 63)
    (hsignature : handleValidatorSignature address ctx s pubkey power signed = .ok s') :
    Counted address pk (flags ++ if pubkey = pk then [signed] else []) s' := by
  obtain ⟨⟨jailedUntil, hinfo⟩, hbits, -⟩ := handleValidatorSignature_writes hsignature
  have hget : ∀ a i, s'.getValidatorSigningBitArray a i =
      (Slashing.countSignature address ctx.blockHeight s pubkey signed).1.getValidatorSigningBitArray
        a i := by
    intro a i
    rw [Store.getValidatorSigningBitArray, hbits]
    rfl
  by_cases hpk : pubkey = pk
  · subst hpk
    rw [h.offset_eq] at hfits
    obtain ⟨hoffset, hcounter, hring⟩ := h.countSignature hfits ctx.blockHeight signed
    rw [if_pos rfl]
    refine ⟨fun {info} hget' => ?_, fun hnone => ?_, hring.congr fun i => hget _ i⟩
    · rw [hinfo] at hget'
      cases hget'
      exact ⟨hoffset, hcounter⟩
    · rw [hinfo] at hnone
      cases hnone
  · obtain ⟨hinfo', hbits'⟩ :=
      handleValidatorSignatureIn_of_ne hsignature fun heq => hpk (hinj heq)
    rw [if_neg hpk, List.append_nil]
    exact h.of_same (by rw [hinfo']) hbits'

/-- What a signing info says still stands where one that says the same is written over it. -/
theorem Store.map_set {α : Type} {a : Address} {info info' : ValidatorSigningInfo}
    {f : ValidatorSigningInfo → α} (hinfo : s.getValidatorSigningInfo a = some info)
    (hsame : f info' = f info) (b : Address) :
    ((s.setValidatorSigningInfo a info').getValidatorSigningInfo b).map f =
      (s.getValidatorSigningInfo b).map f := by
  rw [Store.getValidatorSigningInfo_set]
  split_ifs with haddress
  · rw [← haddress, hinfo, Option.map_some, Option.map_some, hsame]
  · rfl

/-- One step adds at most one report. -/
theorem Counted.step (hinj : Function.Injective address) (h : Counted address pk flags st.store)
    (hfits : Countable address st op) (hstep : Slashing.step address st op = .ok st') :
    Counted address pk (flags ++ reports pk [(st, op)]) st'.store := by
  cases op with
  | stake op hop =>
    have hnone : reports pk [(st, .stake op hop)] = [] := rfl
    rw [hnone, List.append_nil]
    cases step_effect hstep <;> exact h.of_same rfl fun _ => rfl
  | unrevoke msg =>
    have hnone : reports pk [(st, .unrevoke msg)] = [] := rfl
    rw [hnone, List.append_nil]
    cases step_effect hstep with
    | unrevoke _ hinfo => exact h.of_same (Store.map_set hinfo (by rfl) _) fun _ => rfl
  | signature pubkey power signed =>
    simp only [Slashing.step, bind_eq_ok, pure_eq_ok] at hstep
    obtain ⟨store, hsignature, rfl⟩ := hstep
    have hone : reports pk [(st, .signature pubkey power signed)] =
        if pubkey = pk then [signed] else [] := by
      simp only [reports, List.filterMap_cons, List.filterMap_nil]
      split_ifs <;> rfl
    rw [hone]
    exact h.signature hinj hfits hsignature
  | doubleSign pubkey infractionHeight timestamp power =>
    have hnone : reports pk [(st, .doubleSign pubkey infractionHeight timestamp power)] = [] := rfl
    rw [hnone, List.append_nil]
    cases step_effect hstep with
    | tooOld => exact h
    | doubleSign _ _ _ hinfo => exact h.of_same (Store.map_set hinfo (by rfl) _) fun _ => rfl

end Step

theorem counted_of_run {address : PubKey → Address} (hinj : Function.Injective address) {ctx : Ctx}
    {params : Params} {pool : Pool} {accounts : Auth.AccountStore} {history : List (State × Op)}
    {st : State} (hrun : Run (step address) (initial ctx params pool accounts) history st)
    (hfits : Run.Meets (Countable address) history) (pk : PubKey) :
    Counted address pk (reports pk history) st.store := by
  induction hrun with
  | nil =>
    refine ⟨fun hsome => ?_, fun _ => rfl, .nil fun i => ?_⟩
    · simp [initial, Store.getValidatorSigningInfo] at hsome
    · simp [initial, Store.getValidatorSigningBitArray]
  | @snoc history st st' op _ hstep ih =>
    rw [Run.meets_append] at hfits
    rw [reports_append]
    exact (ih hfits.1).step hinj hfits.2 hstep

theorem length_reports_le (pk : PubKey) (history : List (State × Op)) :
    (reports pk history).length ≤ history.length :=
  List.length_filterMap_le _ _

theorem countable_of_length {address : PubKey → Address} (hinj : Function.Injective address)
    {ctx : Ctx} {params : Params} {pool : Pool} {accounts : Auth.AccountStore}
    {history : List (State × Op)} {st : State}
    (hrun : Run (step address) (initial ctx params pool accounts) history st)
    (hlength : history.length < 2 ^ 63) : Run.Meets (Countable address) history := by
  induction hrun with
  | nil => exact fun _ h => (List.not_mem_nil h).elim
  | @snoc history st st' op hbefore hstep ih =>
    rw [List.length_append, List.length_singleton] at hlength
    have hfits := ih (by omega)
    rw [Run.meets_append]
    refine ⟨hfits, ?_⟩
    cases op with
    | signature pubkey power signed =>
      have hoffset := (counted_of_run hinj hbefore hfits pubkey).offset_eq
      have hle := length_reports_le pubkey history
      show offset address st.store pubkey + 1 < 2 ^ 63
      omega
    | _ => trivial

end Tepleton.Slashing
