import Tepleton.Slashing.Counting

/-!
# The signed-blocks counter is a sliding sum

`SignedBlocksWindow` is a variable of the package, which tests set to other values.  For any window,
any number of validators and any order of the calls, the counter of a validator is the number of its
bits that are set, and the number of signed blocks among its last calls (`sliding_sum`).

The call counts itself in an `int64`.  It "must be called once per validator per block", and heights
are `int64`s too, so a validator has not more calls than the offset can index.
-/

namespace Tepleton.Slashing

open Lib Stake

/-! ## Keys: `signing_info.go` -/

def getValidatorSigningInfoKey (v : Address) : Bytes := 1 :: v

/-- `GetValidatorSigningBitArrayKey`: the index in eight bytes, least significant first. -/
def getValidatorSigningBitArrayKey (v : Address) (i : ℤ) : Bytes :=
  2 :: (v ++ (putUint 8 (i % 2 ^ 64).toNat).reverse)

theorem signing_keys_inj {v v' : Address} (hlength : v.length = v'.length) {i j : ℤ}
    (hi : -2 ^ 63 ≤ i ∧ i < 2 ^ 63) (hj : -2 ^ 63 ≤ j ∧ j < 2 ^ 63) :
    (getValidatorSigningInfoKey v = getValidatorSigningInfoKey v' ↔ v = v') ∧
      (getValidatorSigningBitArrayKey v i = getValidatorSigningBitArrayKey v' j ↔
        v = v' ∧ i = j) ∧
      getValidatorSigningInfoKey v ≠ getValidatorSigningBitArrayKey v' j := by
  refine ⟨by simp [getValidatorSigningInfoKey], ?_, ?_⟩
  · have hindex : putUint 8 (i % 2 ^ 64).toNat = putUint 8 (j % 2 ^ 64).toNat ↔ i = j := by
      rw [putUint_inj (by omega) (by omega)]
      omega
    constructor
    · intro heq
      obtain ⟨hv, hbytes⟩ := List.append_inj (List.cons.inj heq).2 hlength
      exact ⟨hv, hindex.mp (List.reverse_inj.mp hbytes)⟩
    · rintro ⟨rfl, rfl⟩
      rfl
  · simp [getValidatorSigningInfoKey, getValidatorSigningBitArrayKey]

/-! ## Runs of calls -/

/-- A call of `handleValidatorSignature`, or anything that happens to the staking store between two
calls. -/
inductive WindowEvent
  | signature (ctx : Ctx) (pubkey : PubKey) (power : ℤ) (signed : Bool)
  | staking (stake : Stake.Store)

/-- One event, for a window of `W` blocks and a threshold. -/
def windowStep (address : PubKey → Address) (W minSigned : ℤ) (s : Store) :
    WindowEvent → Outcome Store
  | .signature ctx pubkey power signed =>
    handleValidatorSignatureIn address W minSigned ctx s pubkey power signed
  | .staking stake => .ok { s with stake }

/-- The height of a call for a key, and whether the block was signed. -/
def WindowEvent.callFor (pk : PubKey) : WindowEvent → Option (ℤ × Bool)
  | .signature ctx pubkey _ signed =>
    if pubkey = pk then some (ctx.blockHeight, signed) else none
  | .staking _ => none

/-- The calls for a key in a run. -/
def callsFor (pk : PubKey) (history : List (Store × WindowEvent)) : List (ℤ × Bool) :=
  (history.map Prod.snd).filterMap (WindowEvent.callFor pk)

/-- The flags of the calls for a key. -/
def signedFlags (pk : PubKey) (history : List (Store × WindowEvent)) : List Bool :=
  (callsFor pk history).map Prod.snd

/-- The function is called once per validator per block. -/
def OncePerBlock (history : List (Store × WindowEvent)) : Prop :=
  ∀ pk, ((callsFor pk history).map Prod.fst).Nodup ∧
    ∀ height ∈ (callsFor pk history).map Prod.fst, 0 ≤ height ∧ height < 2 ^ 63

theorem callsFor_append (pk : PubKey) (history history' : List (Store × WindowEvent)) :
    callsFor pk (history ++ history') = callsFor pk history ++ callsFor pk history' := by
  rw [callsFor, List.map_append, List.filterMap_append]
  rfl

variable {history : List (Store × WindowEvent)}

theorem OncePerBlock.of_append {history' : List (Store × WindowEvent)}
    (h : OncePerBlock (history ++ history')) : OncePerBlock history := by
  intro pk
  obtain ⟨hnodup, hrange⟩ := h pk
  rw [callsFor_append, List.map_append] at hnodup hrange
  exact ⟨(List.nodup_append.mp hnodup).1, fun height hheight => hrange height (by simp [hheight])⟩

theorem OncePerBlock.length_le (h : OncePerBlock history) (pk : PubKey) :
    (signedFlags pk history).length ≤ 2 ^ 63 := by
  obtain ⟨hnodup, hrange⟩ := h pk
  have hsubset : ((callsFor pk history).map Prod.fst).toFinset ⊆ Finset.Ico (0 : ℤ) (2 ^ 63) := by
    intro height hheight
    rw [Finset.mem_Ico]
    exact hrange height (List.mem_toFinset.mp hheight)
  have hcard := Finset.card_le_card hsubset
  rw [List.toFinset_card_of_nodup hnodup, Int.card_Ico, List.length_map] at hcard
  rw [signedFlags, List.length_map]
  exact hcard

/-! ## The invariant -/

section Invariant

variable {address : PubKey → Address} {W : ℕ} {minSigned : ℤ} {pk : PubKey} {flags : List Bool}
  {s s' : Store}

/-- What the store says about the calls for a key. -/
structure CountedIn (address : PubKey → Address) (W : ℕ) (pk : PubKey) (flags : List Bool)
    (s : Store) : Prop where
  info {info : ValidatorSigningInfo} (h : s.getValidatorSigningInfo (address pk) = some info) :
    info.indexOffset = int64 flags.length ∧ info.signedBlocksCounter = (recent W flags).count true
  unseen (h : s.getValidatorSigningInfo (address pk) = none) : flags = []
  bits : Ring W false flags fun i => s.getValidatorSigningBitArray (address pk) i

theorem CountedIn.start (h : CountedIn address W pk flags s) (hfits : flags.length < 2 ^ 63)
    (height : ℤ) :
    let info := (s.getValidatorSigningInfo (address pk)).getD ⟨height, 0, 0, 0⟩
    info.indexOffset = flags.length ∧ info.signedBlocksCounter = (recent W flags).count true := by
  cases hinfo : s.getValidatorSigningInfo (address pk) with
  | none =>
    rw [h.unseen hinfo]
    exact ⟨rfl, by simp [recent]⟩
  | some info =>
    obtain ⟨hoffset, hcounter⟩ := h.info hinfo
    refine ⟨?_, hcounter⟩
    rw [Option.getD_some, hoffset, int64_eq_self (by omega) (by exact_mod_cast hfits)]

theorem CountedIn.signature (hW : 0 < W) (hfitsW : (W : ℤ) < 2 ^ 63)
    (h : CountedIn address W pk flags s) (hfits : flags.length < 2 ^ 63) {ctx : Ctx} {power : ℤ}
    {signed : Bool}
    (hcall : handleValidatorSignatureIn address W minSigned ctx s pk power signed = .ok s') :
    CountedIn address W pk (flags ++ [signed]) s' := by
  obtain ⟨⟨jailedUntil, hinfo⟩, hbits, -⟩ := handleValidatorSignatureIn_writes hcall
  obtain ⟨hoffset, hcounter⟩ := h.start hfits ctx.blockHeight
  obtain ⟨hoffset', hcounter', hring⟩ :=
    countSignatureIn_counts hW hfitsW rfl hoffset hcounter h.bits signed
  refine ⟨fun {info} hget => ?_, fun hnone => ?_, hring.congr fun i => ?_⟩
  · rw [hinfo] at hget
    cases hget
    refine ⟨hoffset'.trans ?_, hcounter'⟩
    rw [List.length_append]
    rfl
  · rw [hinfo] at hnone
    cases hnone
  · rw [Store.getValidatorSigningBitArray, hbits]
    rfl

theorem CountedIn.of_same (h : CountedIn address W pk flags s)
    (hinfo : s'.getValidatorSigningInfo (address pk) = s.getValidatorSigningInfo (address pk))
    (hbits : ∀ i, s'.getValidatorSigningBitArray (address pk) i =
      s.getValidatorSigningBitArray (address pk) i) : CountedIn address W pk flags s' :=
  ⟨fun hget => h.info (hinfo ▸ hget), fun hnone => h.unseen (hinfo ▸ hnone),
    h.bits.congr fun i => hbits i⟩

end Invariant

/-- Along a run of calls the store counts the calls for every key. -/
theorem countedIn_of_run {address : PubKey → Address} (hinj : Function.Injective address) {W : ℕ}
    (hW : 0 < W) (hfitsW : (W : ℤ) < 2 ^ 63) {minSigned : ℤ} {stake : Stake.Store} {s : Store}
    (hrun : Run (windowStep address W minSigned) ⟨stake, ∅, ∅⟩ history s)
    (honce : OncePerBlock history) (pk : PubKey) :
    CountedIn address W pk (signedFlags pk history) s := by
  induction hrun with
  | nil =>
    refine ⟨fun hsome => ?_, fun _ => rfl, .nil fun i => ?_⟩
    · simp [Store.getValidatorSigningInfo] at hsome
    · simp [Store.getValidatorSigningBitArray]
  | @snoc history s s' event _ hstep ih =>
    have hcounted := ih honce.of_append
    have hflags : signedFlags pk (history ++ [(s, event)]) =
        signedFlags pk history ++ signedFlags pk [(s, event)] := by
      rw [signedFlags, callsFor_append, List.map_append]
      rfl
    have hlength := honce.length_le pk
    rw [hflags] at hlength ⊢
    cases event with
    | staking stake =>
      cases hstep
      exact (List.append_nil (signedFlags pk history)).symm ▸ hcounted.of_same rfl fun _ => rfl
    | signature ctx pubkey power signed =>
      by_cases hpk : pubkey = pk
      · subst hpk
        have hone : signedFlags pubkey [(s, .signature ctx pubkey power signed)] = [signed] := by
          simp [signedFlags, callsFor, WindowEvent.callFor]
        rw [hone] at hlength ⊢
        rw [List.length_append, List.length_singleton] at hlength
        exact hcounted.signature hW hfitsW (by omega) hstep
      · have hnone : signedFlags pk [(s, .signature ctx pubkey power signed)] = [] := by
          simp [signedFlags, callsFor, WindowEvent.callFor, hpk]
        rw [hnone, List.append_nil]
        obtain ⟨hinfo, hbits⟩ :=
          handleValidatorSignatureIn_of_ne hstep fun heq => hpk (hinj heq)
        exact hcounted.of_same hinfo hbits

/-- For every window, after every run of calls, the counter of each validator that was called for is the
number of its bits that are set and the number of signed blocks among its last calls; and a call for
one validator leaves what is stored about the others. -/
theorem sliding_sum {address : PubKey → Address} (hinj : Function.Injective address) {W : ℕ}
    (hW : 1 ≤ W) (hfitsW : (W : ℤ) < 2 ^ 63) {minSigned : ℤ} {stake : Stake.Store} {s : Store}
    {history : List (Store × WindowEvent)}
    (hrun : Run (windowStep address W minSigned) ⟨stake, ∅, ∅⟩ history s)
    (honce : OncePerBlock history) :
    (∀ pk, signedFlags pk history ≠ [] →
      ∃ info, s.getValidatorSigningInfo (address pk) = some info ∧
        info.signedBlocksCounter =
          Nat.count (fun i => s.getValidatorSigningBitArray (address pk) i = true) W ∧
        0 ≤ info.signedBlocksCounter ∧ info.signedBlocksCounter ≤ W ∧
        info.signedBlocksCounter =
          ((signedFlags pk history).drop
            ((signedFlags pk history).length - min W (signedFlags pk history).length)).count true) ∧
      ∀ ctx pubkey power signed s',
        handleValidatorSignatureIn address W minSigned ctx s pubkey power signed = .ok s' →
          ∀ pk, pk ≠ pubkey →
            s'.getValidatorSigningInfo (address pk) = s.getValidatorSigningInfo (address pk) ∧
              ∀ i, s'.getValidatorSigningBitArray (address pk) i =
                s.getValidatorSigningBitArray (address pk) i := by
  constructor
  · intro pk hcalled
    have hcounted := countedIn_of_run hinj hW hfitsW hrun honce pk
    cases hinfo : s.getValidatorSigningInfo (address pk) with
    | none => exact absurd (hcounted.unseen hinfo) hcalled
    | some info =>
      obtain ⟨-, hcounter⟩ := hcounted.info hinfo
      have hbound : (recent W (signedFlags pk history)).count true ≤ W :=
        List.count_le_length.trans (length_recent_le W _)
      have hlast : (signedFlags pk history).length - min W (signedFlags pk history).length =
          (signedFlags pk history).length - W := by omega
      refine ⟨info, rfl, ?_, by omega, by omega, ?_⟩
      · rw [hcounter, hcounted.bits.count_slots]
      · rw [hcounter, hlast]
        rfl
  · intro ctx pubkey power signed s' hcall pk hne
    exact handleValidatorSignatureIn_of_ne hcall fun heq => hne (hinj heq).symm

/-- Two validators and a window of two blocks, in which the first one signs its first and third block. -/
theorem sliding_sum_example :
    let start : Store := ⟨emptyStore defaultParams initialPool ⟨∅, 0⟩, ∅, ∅⟩
    let events : List WindowEvent :=
      [.signature ⟨1, 1⟩ [1] 10 true, .signature ⟨1, 1⟩ [2] 10 false,
        .signature ⟨2, 2⟩ [1] 10 false, .signature ⟨3, 3⟩ [1] 10 true]
    ∃ s, Run (windowStep id (2 : ℕ) 0) start (Run.historyOf (windowStep id (2 : ℕ) 0) start events) s ∧
      ∃ info, s.getValidatorSigningInfo [1] = some info ∧
        info.signedBlocksCounter =
          Nat.count (fun i => s.getValidatorSigningBitArray [1] i = true) 2 := by
  intro start events
  have htaken : Run.leadsTo (windowStep id (2 : ℕ) 0) start events (fun _ => true) = true := by
    decide +kernel
  obtain ⟨s, hfold, -⟩ := Run.exists_of_leadsTo htaken
  have hrun := Run.of_foldlM hfold
  have honce : OncePerBlock (Run.historyOf (windowStep id (2 : ℕ) 0) start events) := by
    intro pk
    rw [callsFor, Run.historyOf_inputs hfold]
    by_cases hfirst : [1] = pk
    · subst hfirst
      decide
    · by_cases hsecond : [2] = pk
      · subst hsecond
        decide
      · simp [events, WindowEvent.callFor, hfirst, hsecond]
  obtain ⟨info, hinfo, hcounter, -⟩ :=
    (sliding_sum Function.injective_id (by decide) (by decide) hrun honce).1 [1] (by decide +kernel)
  exact ⟨s, hrun, info, hinfo, hcounter⟩

end Tepleton.Slashing
