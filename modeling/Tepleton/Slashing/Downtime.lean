import Tepleton.Slashing.Engine

/-!
# Downtime

The test for downtime compares the height of the block with the height of the first report, and so
takes it for granted that there was a report for every block in between.  A validator that has left the
validator set and comes back a window later is slashed for the first report that follows
(`downtime_without_reports`).
-/

namespace Tepleton.Slashing

open Lib Stake

/-- A validator that is slashed for downtime had a whole window of reports, too few of them signed,
exactly if the signing info has counted enough of them. -/
theorem downtime_reported_iff {address : PubKey → Address} (hinj : Function.Injective address)
    {ctx : Ctx} {params : Params} {pool : Pool} {accounts : Auth.AccountStore}
    {history before after : List (State × Op)} {st final : State}
    (hrun : Run (step address) (initial ctx params pool accounts) history final)
    (hfits : Run.Meets (Countable address) history) {pk : PubKey} {power : ℤ} {signed : Bool}
    (hsplit : history = before ++ (st, .signature pk power signed) :: after)
    (hdown : (countSignature address st.ctx.blockHeight st.store pk signed).2.IsDown
      st.ctx.blockHeight) :
    (signedBlocksWindow ≤ (reports pk before ++ [signed]).length ∧
      ((recent window (reports pk before ++ [signed])).count true : ℤ) < minSignedPerWindow) ↔
      signedBlocksWindow ≤ offset address st.store pk + 1 := by
  subst hsplit
  obtain ⟨middle, hbefore, hrest⟩ := Run.append_iff.mp hrun
  obtain ⟨rfl, -⟩ := Run.cons_iff.mp hrest
  have hfits' : offset address st.store pk + 1 < 2 ^ 63 :=
    hfits (st, .signature pk power signed) (by simp)
  have hcounted := counted_of_run hinj hbefore (fun entry hentry => hfits entry (by simp [hentry])) pk
  rw [hcounted.offset_eq] at hfits'
  obtain ⟨-, hcounter, -⟩ := hcounted.countSignature hfits' st.ctx.blockHeight signed
  have hlength : ((reports pk before ++ [signed]).length : ℤ) = offset address st.store pk + 1 := by
    rw [hcounted.offset_eq, List.length_append]
    rfl
  rw [hlength]
  refine and_iff_left ?_
  rw [← hcounter]
  exact hdown.2

/-! ## A report after a long absence -/

section Calls

variable {address : PubKey → Address} {pk : PubKey}

/-- The reports about a key among the calls. -/
def reported (pk : PubKey) (ops : List Op) : List Bool :=
  ops.filterMap fun
    | .signature pubkey _ signed => if pubkey = pk then some signed else none
    | _ => none

theorem reported_append (ops ops' : List Op) :
    reported pk (ops ++ ops') = reported pk ops ++ reported pk ops' :=
  List.filterMap_append

theorem reported_uneventfulBlocks (flag : PubKey → Bool) (vals : KVStore PubKey ℤ) (start : ℤ) (n : ℕ) :
    reported pk (uneventfulBlocks flag vals start n) =
      (List.replicate n (reported pk (allReports flag vals.toList))).flatten := by
  induction n with
  | zero => rfl
  | succ n ih =>
    rw [List.replicate_succ', List.flatten_append, ← ih, uneventfulBlocks, List.range_succ,
      List.flatMap_append, reported_append, List.flatMap_singleton, uneventfulBlock, reported_append]
    simp [reported, uneventfulBlocks]

theorem reports_calls {start c : Chain} {ops : List Op}
    (h : ops.foldlM (chainStep address) start = .ok c) :
    reports pk ((Run.historyOf (chainStep address) start ops).map fun entry =>
      (entry.1.state, entry.2)) = reported pk ops := by
  have hinputs := Run.historyOf_inputs h
  rw [← congrArg (reported pk) hinputs, reports, reported, List.filterMap_map, List.filterMap_map]
  rfl

theorem countable_calls (hinj : Function.Injective address) {ctx : Ctx} {params : Params} {pool : Pool}
    {accounts : Auth.AccountStore} {history : List (Chain × Op)} {c : Chain}
    (hrun : Run (chainStep address) (initialChain ctx params pool accounts) history c)
    (hlength : history.length < 2 ^ 63) :
    Run.Meets (Countable address) (history.map fun entry => (entry.1.state, entry.2)) :=
  countable_of_length hinj (run_state hrun) (by rwa [List.length_map])

theorem length_historyOf {start c : Chain} {ops : List Op}
    (h : ops.foldlM (chainStep address) start = .ok c) :
    (Run.historyOf (chainStep address) start ops).length = ops.length := by
  rw [← congrArg List.length (Run.historyOf_inputs h), List.length_map]

theorem counted_of_calls (hinj : Function.Injective address) {ctx : Ctx} {params : Params} {pool : Pool}
    {accounts : Auth.AccountStore} {ops : List Op} {c : Chain}
    (h : ops.foldlM (chainStep address) (initialChain ctx params pool accounts) = .ok c)
    (hlength : ops.length < 2 ^ 63) (pk : PubKey) :
    Counted address pk (reported pk ops) c.state.store := by
  have hrun := Run.of_foldlM h
  have hfits := countable_calls hinj hrun (by rwa [length_historyOf h])
  rw [← reports_calls h]
  exact counted_of_run hinj (run_state hrun) hfits pk

theorem Counted.isDown {flags : List Bool} {s : Store} {first height : ℤ}
    (h : Counted address pk flags s) (hfits : (flags.length : ℤ) + 1 < 2 ^ 63)
    (hstarted : started address s pk = some first) (hlow : 0 ≤ first) (hlate : first + window < height)
    (hhigh : height < 2 ^ 63) (hfew : 2 * (flags.count true + 2) ≤ window) (signed : Bool) :
    (Slashing.countSignature address height s pk signed).2.IsDown height := by
  obtain ⟨info, hinfo, rfl⟩ := Option.map_eq_some_iff.mp hstarted
  constructor
  · rw [countSignature_startHeight, hinfo, Option.elim_some, signedBlocksWindow_eq,
      int64_eq_self (by omega) (by omega)]
    exact hlate
  · obtain ⟨-, hcounter, -⟩ := h.countSignature hfits height signed
    have hle : (recent window (flags ++ [signed])).count true ≤ (flags ++ [signed]).count true :=
      (List.drop_sublist _ _).count_le true
    have hlast : ([signed] : List Bool).count true ≤ 1 := List.count_le_length
    rw [List.count_append] at hle
    rw [hcounter, minSignedPerWindow, signedBlocksWindow_eq]
    omega

end Calls

namespace Example

/-- The first block of a chain without inflation that makes a block per second. -/
def quietGenesis (maxValidators : Fin (2 ^ 16)) : Chain :=
  initialChain ⟨1, 1⟩
    { defaultParams with maxValidators, inflationRateChange := 0, inflationMax := 0, inflationMin := 0 }
    { initialPool with looseTokens := 5000, inflation := 0 } Stake.Example.accounts

/-- The key can be slashed for downtime and revoked. -/
def punishable (st : Stake.State) (pk : PubKey) (power : ℤ) : Bool :=
  passes (fun slashed => passes (fun _ => true) (slashed.revoke st.ctx pk))
    (st.store.slash st.ctx pk st.ctx.blockHeight power slashFractionDowntime)

/-- The calls `ops`, after which the validators stay the same, and `n` blocks in which nothing
happens. -/
theorem quiet_run {maxValidators : Fin (2 ^ 16)} {ops : List Op} (flag : PubKey → Bool)
    {vals : KVStore PubKey ℤ} {start height : ℤ} (n : ℕ) {firsts : List (PubKey × ℤ)}
    {test : Stake.Store → Bool}
    (h : Run.leadsTo (chainStep id) (quietGenesis maxValidators) ops (fun c =>
      decide (c.state.ctx = ⟨start, start⟩ ∧ c.engine.current.toList = vals.toList ∧
        c.engine.due = vals.toList ∧ Idle c.state.store.stake ∧
        (∀ report ∈ vals.toList, InWindow id height c.state.store report.1) ∧
        ∀ entry ∈ firsts, started id c.state.store entry.1 = some entry.2) &&
      test c.state.store.stake) = true)
    (hlow : 0 ≤ start) (hsoon : height ≤ start + 40000) (hhigh : height < 2 ^ 62)
    (hn : start + n ≤ height + 1) :
    ∃ s past, (ops ++ uneventfulBlocks flag vals start n).foldlM (chainStep id)
        (quietGenesis maxValidators) =
          .ok ⟨⟨⟨start + n, start + n⟩, s⟩, ⟨vals, vals.toList, past⟩⟩ ∧
      (∀ entry ∈ firsts, started id s entry.1 = some entry.2) ∧ test s.stake = true := by
  obtain ⟨⟨⟨ctx, s⟩, ⟨current, due, past⟩⟩, hops, htest⟩ := Run.exists_of_leadsTo h
  rw [Bool.and_eq_true, decide_eq_true_eq] at htest
  obtain ⟨⟨rfl, hcurrent, rfl, hidle, hvals, hfirsts⟩, htest⟩ := htest
  obtain rfl : current = vals := Std.ExtTreeMap.toList_inj.mp hcurrent
  have hwindow := window_eq
  obtain ⟨s', past', hblocks, hstake, hkeeps⟩ := uneventful_blocks flag past hidle hvals hlow
    (by omega) (by omega) n hn
  refine ⟨s', past', foldlM_append_of_ok hops hblocks,
    fun entry hentry => hkeeps.started (hfirsts entry hentry), ?_⟩
  rw [hstake]
  exact htest

/-- There is one place.  The validator of account `[1]` has it in the first block and signs, but the
validator of account `[2]` takes it in the second. -/
def leaving : List Op :=
  [.stake (Stake.Example.create 1 100) rfl, .stake (.endBlock 2) rfl,
    .stake (Stake.Example.create 2 200) rfl, .stake (.endBlock 3) rfl,
    .signature [101] 100 true, .stake (.endBlock 4) rfl,
    .signature [102] 200 true, .stake (.endBlock 5) rfl]

/-- The second validator alone. -/
def second : KVStore PubKey ℤ := (∅ : KVStore PubKey ℤ).insert [102] 200

/-- Nothing happens until a delegation brings the first one back. -/
def absence : List Op :=
  leaving ++ uneventfulBlocks (fun _ => true) second 5 39997 ++
    [.signature [102] 200 true, .stake (Stake.Example.delegate 1 1 150) rfl,
      .stake (.endBlock 40003) rfl, .signature [102] 200 true, .stake (.endBlock 40004) rfl]

/-- What the delegation and the ends of the two blocks do to the staking store. -/
def returns (stake : Stake.Store) : Bool :=
  passes (fun st₁ => decide (st₁.ctx = ⟨40002, 40002⟩ ∧
      (st₁.store.getTendermintUpdates.foldl applyUpdate second).toList = [([101], 250)]) &&
    passes (fun st₂ => decide (st₂.ctx = ⟨40003, 40003⟩) &&
      passes (fun st₃ => decide (st₃.ctx = ⟨40004, 40004⟩) && punishable st₃ [101] 250)
        (Stake.step st₂ (.endBlock 40004)))
      (Stake.step st₁ (.endBlock 40003)))
    (Stake.step ⟨⟨40002, 40002⟩, stake⟩ (Stake.Example.delegate 1 1 150))

/-- The first validator is away for a window and comes back. -/
theorem absence_run : ∃ s current past slashed stake,
    absence.foldlM (chainStep id) (quietGenesis 1) =
      .ok ⟨⟨⟨40004, 40004⟩, s⟩, ⟨current, [([101], 250)], past⟩⟩ ∧
    started id s [101] = some 3 ∧
    s.stake.slash ⟨40004, 40004⟩ [101] 40004 250 slashFractionDowntime = .ok slashed ∧
    slashed.revoke ⟨40004, 40004⟩ [101] = .ok stake := by
  have hwindow := window_eq
  have hlist : second.toList = [([102], 200)] := by decide
  obtain ⟨s, past, haway, hfirsts, hreturns⟩ := @quiet_run 1 leaving (fun _ => true) second 5 40003
    39997 [([101], 3), ([102], 4)] returns (by decide +kernel) (by decide) (by decide) (by decide)
    (by decide)
  obtain ⟨hgone, hthere, -⟩ := List.forall_mem_cons.mp hfirsts |>.imp_right List.forall_mem_cons.mp
  have hin : InWindow id 40003 s [102] := by
    intro first hfirst
    obtain rfl := Option.some.inj (hthere.symm.trans hfirst)
    exact ⟨by decide, by omega⟩
  rw [hlist] at haway
  obtain ⟨⟨ctx₁, stake₁⟩, hdelegate, htest₁⟩ := exists_of_passes hreturns
  rw [Bool.and_eq_true, decide_eq_true_eq] at htest₁
  obtain ⟨⟨rfl, hupdates⟩, htest₁⟩ := htest₁
  obtain ⟨⟨ctx₂, stake₂⟩, hend₂, htest₂⟩ := exists_of_passes htest₁
  rw [Bool.and_eq_true, decide_eq_true_eq] at htest₂
  obtain ⟨rfl, htest₂⟩ := htest₂
  obtain ⟨⟨ctx₃, stake₃⟩, hend₃, htest₃⟩ := exists_of_passes htest₂
  rw [Bool.and_eq_true, decide_eq_true_eq] at htest₃
  obtain ⟨rfl, htest₃⟩ := htest₃
  obtain ⟨slashed, hslash, hrevoke⟩ := exists_of_passes htest₃
  obtain ⟨stake, hrevoke, -⟩ := exists_of_passes hrevoke
  -- the second validator is reported in the block of the delegation and in the next one
  obtain ⟨s₁, hs₁, hstake₁⟩ := @InWindow.report id ⟨40002, 40002⟩ s [102] 40003 hin (by decide)
    (by decide) (by omega) 200 true
  have hkeeps₁ : KeepsStarts id 40003 s s₁ := .report hs₁ (by decide) (by dsimp only; omega)
  obtain ⟨s₂, hs₂, hstake₂⟩ := @InWindow.report id ⟨40003, 40003⟩ { s₁ with stake := stake₂ } [102]
    40003 (hkeeps₁.inWindow hin) (by decide) (by decide) (by omega) 200 true
  have hkeeps₂ : KeepsStarts id 40003 _ s₂ := .report hs₂ (by decide) (by dsimp only; omega)
  rw [← hstake₁] at hdelegate
  rw [show stake₂ = s₂.stake from hstake₂.symm] at hend₃
  have hall := foldlM_append_of_ok haway <| foldlM_cons_of_ok (chainStep_signature hs₁ ..) <|
    foldlM_cons_of_ok (chainStep_stake rfl hdelegate rfl) <|
    foldlM_cons_of_ok (chainStep_stake rfl hend₂ rfl) <|
    foldlM_cons_of_ok (chainStep_signature hs₂ ..) <|
    foldlM_cons_of_ok (chainStep_stake rfl hend₃ rfl) List.foldlM_nil
  rw [hupdates] at hall
  exact ⟨_, _, _, slashed, stake, hall, hkeeps₂.started (hkeeps₁.started hgone), hslash, hrevoke⟩

/-- The validators of accounts `[1]` and `[2]`. -/
def both : KVStore PubKey ℤ := ((∅ : KVStore PubKey ℤ).insert [101] 100).insert [102] 1000

/-- The validator of account `[1]` is alone and signs until that of account `[2]` has joined it. -/
def joining : List Op :=
  [.stake (Stake.Example.create 1 100) rfl, .stake (.endBlock 2) rfl, .stake (.endBlock 3) rfl,
    .signature [101] 100 true, .stake (Stake.Example.create 2 1000) rfl, .stake (.endBlock 4) rfl,
    .signature [101] 100 true, .stake (.endBlock 5) rfl,
    .signature [101] 100 false, .signature [102] 1000 true, .stake (.endBlock 6) rfl]

/-- From then on the first one does not sign. -/
def missed : List Op :=
  joining ++ uneventfulBlocks (fun pk => decide (pk ≠ [101])) both 6 39998

theorem length_missed : missed.length < 2 ^ 61 := by
  have hlist : both.toList.length = 2 := by decide
  have hjoining : joining.length = 11 := rfl
  rw [missed, List.length_append, length_uneventfulBlocks, hlist]
  omega

theorem reported_missed :
    (reported [101] missed).length = 40001 ∧ (reported [101] missed).count true = 2 := by
  have hjoining : reported [101] joining = [true, true, false] := by decide
  have hone : reported [101] (allReports (fun pk => decide (pk ≠ [101])) both.toList) = [false] := by
    decide
  rw [missed, reported_append, reported_uneventfulBlocks, hjoining, hone,
    List.flatten_replicate_singleton, List.length_append, List.length_replicate, List.count_append,
    List.count_replicate]
  exact ⟨rfl, rfl⟩

/-- The first validator can be slashed in two blocks that follow each other. -/
def slashedTwice (stake : Stake.Store) : Bool :=
  passes (fun slashed => passes (fun stake₁ =>
      passes (fun st => decide (st.ctx = ⟨40005, 40005⟩) && punishable st [101] 100)
        (Stake.step ⟨⟨40004, 40004⟩, stake₁⟩ (.endBlock 40005)))
      (slashed.revoke ⟨40004, 40004⟩ [101]))
    (stake.slash ⟨40004, 40004⟩ [101] 40004 100 slashFractionDowntime)

theorem missed_run : ∃ s past,
    missed.foldlM (chainStep id) (quietGenesis 2) =
      .ok ⟨⟨⟨40004, 40004⟩, s⟩, ⟨both, [([101], 100), ([102], 1000)], past⟩⟩ ∧
    started id s [101] = some 3 ∧ started id s [102] = some 5 ∧ slashedTwice s.stake = true := by
  have hlist : both.toList = [([101], 100), ([102], 1000)] := by decide
  obtain ⟨s, past, hops, hfirsts, htwice⟩ := @quiet_run 2 joining (fun pk => decide (pk ≠ [101])) both
    6 40003 39998 [([101], 3), ([102], 5)] slashedTwice (by decide +kernel) (by decide) (by decide)
    (by decide) (by decide)
  rw [hlist] at hops
  exact ⟨s, past, hops, hfirsts ([101], 3) (by simp), hfirsts ([102], 5) (by simp), htwice⟩

/-- After calls in which the first validator has missed all but two blocks it is down. -/
theorem down_of_missed {ops : List Op} {c : Chain} {height : ℤ}
    (h : ops.foldlM (chainStep id) (quietGenesis 2) = .ok c) (hlength : ops.length < 2 ^ 62)
    (hreported : (reported [101] ops).count true = 2) (hstarted : started id c.state.store [101] = some 3)
    (hheight : 40003 < height) (hhigh : height < 2 ^ 63) :
    (countSignature id height c.state.store [101] false).2.IsDown height := by
  have hwindow := window_eq
  have hle : (reported [101] ops).length ≤ ops.length := List.length_filterMap_le _ _
  exact (counted_of_calls Function.injective_id h (by omega) [101]).isDown (by omega) hstarted
    (by decide) (by omega) hhigh (by omega) false

end Example

theorem downtime_reported_missed : ∃ history c final,
    Run (chainStep id) (Example.quietGenesis 2) (history ++ [(c, .signature [101] 100 false)]) final ∧
      signedBlocksWindow ≤
        (reports [101] (history.map fun entry => (entry.1.state, entry.2)) ++ [false]).length := by
  obtain ⟨s, past, hops, hstarted, -, htwice⟩ := Example.missed_run
  obtain ⟨slashed, hslash, htest⟩ := exists_of_passes htwice
  obtain ⟨stake, hrevoke, -⟩ := exists_of_passes htest
  have hlength := Example.length_missed
  have hdown := Example.down_of_missed hops (by omega) Example.reported_missed.2 hstarted
    (show 40003 < 40004 by decide) (by decide)
  obtain ⟨s', hs', -⟩ := report_of_isDown ⟨40004, 40004⟩ hdown hslash hrevoke
  have hrun := (Run.of_foldlM hops).snoc (chainStep_signature hs' ..)
  have hfits := countable_calls Function.injective_id hrun (by
    rw [List.length_append, length_historyOf hops, List.length_singleton]
    omega)
  have hstate := run_state hrun
  rw [List.map_append] at hstate hfits
  have hiff := downtime_reported_iff Function.injective_id hstate hfits rfl hdown
  refine ⟨_, _, _, hrun, (hiff.mpr ?_).1⟩
  rw [(counted_of_calls Function.injective_id hops (by omega) [101]).offset_eq,
    Example.reported_missed.1]
  decide

/-- A validator that comes back after a window is slashed although it has signed every block that it
had to. -/
theorem downtime_without_reports : ∃ history c final,
    Run (chainStep id) (Example.quietGenesis 1) (history ++ [(c, .signature [101] 250 true)]) final ∧
      (countSignature id c.state.ctx.blockHeight c.state.store [101] true).2.IsDown
        c.state.ctx.blockHeight ∧
      ¬ signedBlocksWindow ≤
        (reports [101] (history.map fun entry => (entry.1.state, entry.2)) ++ [true]).length := by
  obtain ⟨s, current, past, slashed, stake, hops, hstarted, hslash, hrevoke⟩ := Example.absence_run
  have hwindow := window_eq
  have hlength : Example.absence.length < 2 ^ 62 := by
    have hlist : Example.second.toList.length = 1 := by decide
    have hleaving : Example.leaving.length = 8 := rfl
    rw [Example.absence, List.length_append, List.length_append, length_uneventfulBlocks, hlist]
    simp only [List.length_cons, List.length_nil]
    omega
  have hreported : reported [101] Example.absence = [true] := by
    have hnone : reported [101] (allReports (fun _ => true) Example.second.toList) = [] := by decide
    rw [Example.absence, reported_append, reported_append, reported_uneventfulBlocks, hnone,
      List.flatten_replicate_nil]
    rfl
  have hcounted := counted_of_calls Function.injective_id hops (by omega) [101]
  rw [hreported] at hcounted
  have hdown : (countSignature id 40004 s [101] true).2.IsDown 40004 :=
    hcounted.isDown (by decide) hstarted (by decide) (by omega) (by decide) (by simp [hwindow]) true
  obtain ⟨s', hs', -⟩ := report_of_isDown ⟨40004, 40004⟩ hdown hslash hrevoke
  refine ⟨_, _, _, (Run.of_foldlM hops).snoc (chainStep_signature hs' ..), hdown, ?_⟩
  rw [reports_calls hops, hreported]
  decide

/-! ## One downtime, one slash -/

/-- A downtime that is punished is one of a validator that is not revoked already, nobody creates a
validator with a key that was in use before, and evidence is about a block there was. -/
def PunishesOnce (address : PubKey → Address) (st : State) : Op → Prop
  | .signature pubkey _ signed =>
    (countSignature address st.ctx.blockHeight st.store pubkey signed).2.IsDown st.ctx.blockHeight →
      ∀ v ∈ st.store.stake.getValidatorByPubKey pubkey, v.revoked = false
  | .stake (.createValidator msg) _ => PubKeyFree st.store.stake msg.pubKey ∧
      st.store.getValidatorSigningInfo (address msg.pubKey) = none
  | .doubleSign _ infractionHeight _ _ => 0 < infractionHeight
  | _ => True

instance (address : PubKey → Address) (st : State) (op : Op) : Decidable (PunishesOnce address st op) :=
  match op with
  | .signature _ _ _ => inferInstanceAs (Decidable (_ → ∀ v ∈ _, _))
  | .stake (.createValidator _) _ => inferInstanceAs (Decidable (_ ∧ _))
  | .doubleSign _ _ _ _ => inferInstanceAs (Decidable (_ < _))
  | .unrevoke _ => inferInstanceAs (Decidable True)
  | .stake (.endBlock _) _ | .stake (.editValidator _) _ | .stake (.delegate _) _
  | .stake (.beginUnbonding _) _ | .stake (.completeUnbonding _) _ | .stake (.beginRedelegate _) _
  | .stake (.completeRedelegate _) _ => inferInstanceAs (Decidable True)

/-- The step is an unrevoke message for a validator with the key. -/
def Releases (pk : PubKey) (st : State) : Op → Prop
  | .unrevoke msg => ∃ v, st.store.stake.getValidator msg.validatorAddr = some v ∧ v.pubKey = pk
  | _ => False

/-- The key has been revoked and was not released since. -/
structure Confined (address : PubKey → Address) (pk : PubKey) (st : State) : Prop where
  revoked : KeyRevoked pk st.store.stake
  known : ∃ info, st.store.getValidatorSigningInfo (address pk) = some info

section Once

variable {address : PubKey → Address} {st st' : State} {op : Op} {pk : PubKey}

/-- Signing infos are never removed. -/
theorem known_step {a : Address} (hknown : ∃ info, st.store.getValidatorSigningInfo a = some info)
    (h : step address st op = .ok st') : ∃ info, st'.store.getValidatorSigningInfo a = some info := by
  obtain ⟨info, hinfo⟩ := hknown
  have hset : ∀ (s : Store) b info', s.getValidatorSigningInfo a = some info →
      ∃ info'', (s.setValidatorSigningInfo b info').getValidatorSigningInfo a = some info'' := by
    intro s b info' hs
    rw [Store.getValidatorSigningInfo_set]
    split_ifs
    · exact ⟨info', rfl⟩
    · exact ⟨info, hs⟩
  cases step_effect h with
  | endBlock | stake | tooOld => exact ⟨info, hinfo⟩
  | unrevoke => exact hset st.store _ _ hinfo
  | up hcount => exact hset _ _ _ ((getValidatorSigningInfo_of_count hcount a).trans hinfo)
  | @down _ _ _ s₁ _ _ stake hcount =>
    exact hset { s₁ with stake } _ _ ((getValidatorSigningInfo_of_count hcount a).trans hinfo)
  | @doubleSign _ _ _ _ _ stake => exact hset { st.store with stake } _ _ hinfo

theorem KeysSound.step (hs : KeysSound st.store.stake) (pk : PubKey)
    (hguard : PunishesOnce address st op) (h : Slashing.step address st op = .ok st') :
    KeysSound st'.store.stake ∧
      (Confined address pk st → ¬ Releases pk st op → KeyRevoked pk st'.store.stake) := by
  cases step_effect h with
  | endBlock pool => exact ⟨hs.endBlock pool 0 ∅, fun hpk _ => hpk.revoked⟩
  | @stake op hop stake hdeliver =>
    have hrecent : op.Recent st.ctx := recent_of_not_isKeeperCall hop
    constructor
    · refine hs.deliver op hrecent ?_ hdeliver
      cases op with
      | createValidator msg => exact hguard.1
      | _ => trivial
    · intro hpk _
      refine hpk.revoked.deliver op hs.wellFormed hs.entries hrecent ?_ hdeliver
      cases op with
      | createValidator msg =>
        -- the key of a new validator has no signing info yet
        rintro rfl
        obtain ⟨info, hinfo⟩ := hpk.known
        rw [hguard.2] at hinfo
        cases hinfo
      | unrevoke pubkey => cases hop
      | _ => trivial
  | @unrevoke msg validator info stake hvalidator _ _ hunrevoke =>
    refine ⟨hs.deliver (.unrevoke validator.pubKey) trivial trivial hunrevoke, fun hpk hnot => ?_⟩
    exact hpk.revoked.deliver (.unrevoke validator.pubKey) hs.wellFormed hs.entries trivial
      (fun heq => hnot ⟨validator, hvalidator, heq⟩) hunrevoke
  | @up pubkey power signed s₁ signInfo hcount hstake hup =>
    show KeysSound s₁.stake ∧ (_ → _ → KeyRevoked pk s₁.stake)
    rw [hstake]
    exact ⟨hs, fun hpk _ => hpk.revoked⟩
  | down _ _ hslash hrevoke =>
    obtain ⟨hs', -, hkept⟩ := hs.punish (.inl rfl) hslash hrevoke
    exact ⟨hs', fun hpk _ => hkept pk hpk.revoked⟩
  | tooOld => exact ⟨hs, fun hpk _ => hpk.revoked⟩
  | doubleSign _ hslash hrevoke =>
    obtain ⟨hs', -, hkept⟩ := hs.punish (.inr hguard) hslash hrevoke
    exact ⟨hs', fun hpk _ => hkept pk hpk.revoked⟩

theorem Confined.step (hpk : Confined address pk st) (hs : KeysSound st.store.stake)
    (hguard : PunishesOnce address st op) (hnot : ¬ Releases pk st op)
    (h : Slashing.step address st op = .ok st') : Confined address pk st' :=
  ⟨(hs.step pk hguard h).2 hpk hnot, known_step hpk.known h⟩

theorem Confined.of_isDown {power : ℤ} {signed : Bool} (hs : KeysSound st.store.stake)
    (hdown : (countSignature address st.ctx.blockHeight st.store pk signed).2.IsDown
      st.ctx.blockHeight)
    (h : Slashing.step address st (.signature pk power signed) = .ok st') :
    Confined address pk st' := by
  cases step_effect h with
  | up hcount _ hup =>
    rw [hcount] at hdown
    exact absurd hdown hup
  | down _ _ hslash hrevoke =>
    refine ⟨(hs.punish (.inl rfl) hslash hrevoke).2.1, ?_⟩
    rw [Store.getValidatorSigningInfo_set, if_pos rfl]
    exact ⟨_, rfl⟩

theorem Confined.not_isDown {power : ℤ} {signed : Bool} (hpk : Confined address pk st)
    (hs : KeysSound st.store.stake)
    (hguard : PunishesOnce address st (.signature pk power signed))
    (h : Slashing.step address st (.signature pk power signed) = .ok st') :
    ¬ (countSignature address st.ctx.blockHeight st.store pk signed).2.IsDown
      st.ctx.blockHeight := by
  intro hdown
  cases step_effect h with
  | up hcount _ hup =>
    rw [hcount] at hdown
    exact hup hdown
  | down _ _ hslash =>
    simp only [Stake.Store.slash, bind_eq_ok, Prod.exists] at hslash
    obtain ⟨prepared, copy, hprepare, -⟩ := hslash
    obtain ⟨v, -, -, hv, -⟩ := prepareSlash_eq_ok hprepare
    have hfree := hguard hdown v hv
    obtain ⟨a, -, hget⟩ := Option.bind_eq_some_iff.mp hv
    rw [hpk.revoked a v hget (hs.entries.found hv)] at hfree
    cases hfree

end Once

/-- If no revoked validator is slashed for downtime and no key is used again for a new validator, then
a validator with the key is unrevoked between two slashes. -/
theorem unrevoked_between {address : PubKey → Address} {ctx : Ctx} {params : Params} {pool : Pool}
    {accounts : Auth.AccountStore} {before between after : List (State × Op)} {st₁ st₂ final : State}
    {pk : PubKey} {power₁ power₂ : ℤ} {signed₁ signed₂ : Bool}
    (hrun : Run (step address) (initial ctx params pool accounts)
      (before ++ (st₁, .signature pk power₁ signed₁) ::
        (between ++ (st₂, .signature pk power₂ signed₂) :: after)) final)
    (hguard : Run.Meets (PunishesOnce address) (before ++ (st₁, .signature pk power₁ signed₁) ::
      (between ++ (st₂, .signature pk power₂ signed₂) :: after)))
    (hdown₁ : (countSignature address st₁.ctx.blockHeight st₁.store pk signed₁).2.IsDown
      st₁.ctx.blockHeight)
    (hdown₂ : (countSignature address st₂.ctx.blockHeight st₂.store pk signed₂).2.IsDown
      st₂.ctx.blockHeight) :
    ∃ entry ∈ between, Releases pk entry.1 entry.2 := by
  by_contra hnone
  push Not at hnone
  obtain ⟨_, hbefore, hrest⟩ := Run.append_iff.mp hrun
  obtain ⟨rfl, st₁', hfirst, hrest⟩ := Run.cons_iff.mp hrest
  obtain ⟨_, hbetween, hrest⟩ := Run.append_iff.mp hrest
  obtain ⟨rfl, st₂', hsecond, -⟩ := Run.cons_iff.mp hrest
  have hkeys₁ : KeysSound st₁.store.stake :=
    Run.invariant (fun st => KeysSound st.store.stake) (emptyStore_keysSound _ _ _)
      (fun hs hg h => (hs.step pk hg h).1) hbefore fun entry hentry =>
        hguard entry (by simp [hentry])
  have hg₁ : PunishesOnce address st₁ (.signature pk power₁ signed₁) :=
    hguard (st₁, .signature pk power₁ signed₁) (by simp)
  have hg₂ : PunishesOnce address st₂ (.signature pk power₂ signed₂) :=
    hguard (st₂, .signature pk power₂ signed₂) (by simp)
  -- between the two slashes the key stays confined
  have hkept : Run.Meets (fun st op => PunishesOnce address st op ∧ ¬ Releases pk st op) between :=
    fun entry hentry => ⟨hguard entry (by simp [hentry]), hnone entry hentry⟩
  obtain ⟨hkeys₂, hconfined⟩ : KeysSound st₂.store.stake ∧ Confined address pk st₂ :=
    Run.invariant (fun st => KeysSound st.store.stake ∧ Confined address pk st)
      ⟨(hkeys₁.step pk hg₁ hfirst).1, .of_isDown hkeys₁ hdown₁ hfirst⟩
      (fun hst hg h => ⟨(hst.1.step pk hg.1 h).1, hst.2.step hst.1 hg.1 hg.2 h⟩) hbetween hkept
  exact hconfined.not_isDown hkeys₂ hg₂ hsecond hdown₂

namespace Example

/-- A validator that was created misses a block. -/
def missing : List Op :=
  [.stake (Stake.Example.create 1 100) rfl, .stake (.endBlock 1) rfl, .signature [101] 100 false]

/-- A validator is unrevoked when its term is over. -/
def releasing : List Op := [.stake (.endBlock 301) rfl, .unrevoke ⟨[1]⟩, .stake (.endBlock 301) rfl]

/-- The next report about the validator, in the block `ctx`, is of one that is down. -/
def downAt (ctx : Ctx) (s : Store) : Bool :=
  decide ((countSignature id ctx.blockHeight s [101] false).2.IsDown ctx.blockHeight ∧
    PunishesOnce id ⟨ctx, s⟩ (.signature [101] 100 false))

/-- The validator is slashed a window after it was created and a window after it was released. -/
def slashedAgain (s : Store) : Bool :=
  downAt ⟨40003, 1⟩ s && passes (fun st => decide (Run.Meets (PunishesOnce id)
      (Run.historyOf (step id) st releasing)) && Run.leadsTo (step id) st releasing fun st =>
        decide (st.ctx = ⟨40005, 301⟩ ∧ Idle st.store.stake) && downAt ⟨80006, 301⟩ st.store &&
          passes (fun _ => true) (step id ⟨⟨80006, 301⟩, st.store⟩ (.signature [101] 100 false)))
    (step id ⟨⟨40003, 1⟩, s⟩ (.signature [101] 100 false))

theorem meets_idle {st st' : State} {blockTime : ℤ} {n : ℕ}
    (h : (List.replicate n (.stake (.endBlock blockTime) rfl : Op)).foldlM (step id) st = .ok st') :
    Run.Meets (PunishesOnce id)
      (Run.historyOf (step id) st (List.replicate n (.stake (.endBlock blockTime) rfl))) := by
  intro entry hentry
  have hinput := List.mem_map_of_mem (f := Prod.snd) hentry
  rw [Run.historyOf_inputs h] at hinput
  rw [List.eq_of_mem_replicate hinput]
  trivial

end Example

theorem unrevoked_between_example : ∃ before between st₁ st₂ final,
    Run (step id) (Example.quietGenesis 2).state
        (before ++ (st₁, .signature [101] 100 false) ::
          (between ++ (st₂, .signature [101] 100 false) :: [])) final ∧
      ∃ entry ∈ between, Releases [101] entry.1 entry.2 := by
  obtain ⟨⟨ctx, s⟩, hmissing, htest⟩ := Run.exists_of_leadsTo (show Run.leadsTo (step id)
    (Example.quietGenesis 2).state Example.missing (fun st => decide (st.ctx = ⟨2, 1⟩ ∧
      Idle st.store.stake) && Example.slashedAgain st.store) = true by decide +kernel)
  rw [Bool.and_eq_true, decide_eq_true_eq] at htest
  obtain ⟨⟨hctx, hidle⟩, hagain⟩ := htest
  dsimp only at hctx hidle hagain
  subst hctx
  rw [Example.slashedAgain, Bool.and_eq_true] at hagain
  obtain ⟨hdown, hagain⟩ := hagain
  obtain ⟨st, hslashed, htest⟩ := exists_of_passes hagain
  rw [Bool.and_eq_true, decide_eq_true_eq] at htest
  obtain ⟨hmeets, htest⟩ := htest
  obtain ⟨⟨ctx', s'⟩, hreleasing, htest⟩ := Run.exists_of_leadsTo htest
  rw [Bool.and_eq_true, Bool.and_eq_true, decide_eq_true_eq] at htest
  obtain ⟨⟨⟨hctx', hidle'⟩, hdown'⟩, hlast⟩ := htest
  dsimp only at hctx' hidle' hdown' hlast
  subst hctx'
  obtain ⟨final, hlast, -⟩ := exists_of_passes hlast
  obtain ⟨hdown, hguard⟩ := of_decide_eq_true hdown
  obtain ⟨hdown', hguard'⟩ := of_decide_eq_true hdown'
  have hwait : (List.replicate 40001 (.stake (.endBlock 1) rfl : Op)).foldlM (step id)
      ⟨⟨2, 1⟩, s⟩ = .ok ⟨⟨40003, 1⟩, s⟩ := idle_blocks hidle 1 2 40001 (by norm_num)
  have hwait' : (List.replicate 40001 (.stake (.endBlock 301) rfl : Op)).foldlM (step id)
      ⟨⟨40005, 301⟩, s'⟩ = .ok ⟨⟨80006, 301⟩, s'⟩ := idle_blocks hidle' 301 40005 40001 (by norm_num)
  have hfirst := Run.append_iff.mpr ⟨_, Run.of_foldlM hmissing, Run.of_foldlM hwait⟩
  have hsecond := Run.append_iff.mpr ⟨_, Run.of_foldlM hreleasing, Run.of_foldlM hwait'⟩
  have hrun := Run.append_iff.mpr
    ⟨_, hfirst, Run.cons hslashed (Run.append_iff.mpr ⟨_, hsecond, Run.cons hlast .nil⟩)⟩
  refine ⟨_, _, _, _, _, hrun, unrevoked_between hrun ?_ hdown hdown'⟩
  have hmeets₁ : Run.Meets (PunishesOnce id)
      (Run.historyOf (step id) (Example.quietGenesis 2).state Example.missing) := by decide +kernel
  have hmeets₂ := Example.meets_idle hwait
  have hmeets₃ := Example.meets_idle hwait'
  intro entry hentry
  simp only [List.mem_append, List.mem_cons, List.not_mem_nil, or_false] at hentry
  rcases hentry with (hentry | hentry) | rfl | (hentry | hentry) | rfl
  · exact hmeets₁ entry hentry
  · exact hmeets₂ entry hentry
  · exact hguard
  · exact hmeets entry hentry
  · exact hmeets₃ entry hentry
  · exact hguard'

/-- A validator is slashed for the same downtime in two blocks that follow each other: it is still
reported in the block after the one in which it was revoked. -/
theorem slashed_while_revoked : ∃ history between c₁ c₂ final,
    Run (chainStep id) (Example.quietGenesis 2)
        (history ++ (c₁, .signature [101] 100 false) ::
          (between ++ [(c₂, .signature [101] 100 false)])) final ∧
      (countSignature id c₁.state.ctx.blockHeight c₁.state.store [101] false).2.IsDown
        c₁.state.ctx.blockHeight ∧
      (countSignature id c₂.state.ctx.blockHeight c₂.state.store [101] false).2.IsDown
        c₂.state.ctx.blockHeight ∧
      ∀ entry ∈ between, ¬ Releases [101] entry.1.state entry.2 := by
  obtain ⟨s, past, hops, hone, htwo, htwice⟩ := Example.missed_run
  obtain ⟨slashed, hslash, htest⟩ := exists_of_passes htwice
  obtain ⟨stake, hrevoke, htest⟩ := exists_of_passes htest
  obtain ⟨⟨ctx', stake'⟩, hend, htest⟩ := exists_of_passes htest
  rw [Bool.and_eq_true, decide_eq_true_eq] at htest
  obtain ⟨rfl, htest⟩ := htest
  obtain ⟨slashed', hslash', htest⟩ := exists_of_passes htest
  obtain ⟨stake'', hrevoke', -⟩ := exists_of_passes htest
  have hwindow := window_eq
  have hlist : Example.both.toList = [([101], 100), ([102], 1000)] := by decide
  have hlength := Example.length_missed
  have hdown := Example.down_of_missed hops (by omega) Example.reported_missed.2 hone
    (show 40003 < 40004 by decide) (by decide)
  obtain ⟨s₁, hs₁, hstake₁⟩ := report_of_isDown ⟨40004, 40004⟩ hdown hslash hrevoke
  have hkeeps₁ : KeepsStarts id 40004 s s₁ := .report hs₁ (by decide) (by dsimp only; omega)
  have hin : InWindow id 40004 s₁ [102] := by
    intro first hfirst
    obtain rfl := Option.some.inj ((hkeeps₁.started htwo).symm.trans hfirst)
    exact ⟨by decide, by omega⟩
  obtain ⟨s₂, hs₂, hstake₂⟩ := @InWindow.report id ⟨40004, 40004⟩ s₁ [102] 40004 hin (by decide)
    (by decide) (by omega) 1000 true
  have hkeeps₂ : KeepsStarts id 40004 s₁ s₂ := .report hs₂ (by decide) (by dsimp only; omega)
  rw [← hstake₁, ← hstake₂] at hend
  have htaken₁ := chainStep_signature hs₁ Example.both [([102], 1000)] past
  have htaken₂ := chainStep_signature hs₂ Example.both [] past
  have htaken₃ := @chainStep_stake id _ _ _ _ _ rfl ⟨Example.both, [], past⟩ _ hend rfl
  rw [hlist] at htaken₃
  have hagain := foldlM_append_of_ok hops <| foldlM_cons_of_ok htaken₁ <|
    foldlM_cons_of_ok htaken₂ <| foldlM_cons_of_ok htaken₃ List.foldlM_nil
  have hdown' := Example.down_of_missed hagain
    (by
      rw [List.length_append, List.length_cons, List.length_cons, List.length_singleton]
      omega)
    (by rw [reported_append, List.count_append, Example.reported_missed.2]; rfl)
    (hkeeps₂.started (hkeeps₁.started hone)) (show 40003 < 40005 by decide) (by decide)
  obtain ⟨s₄, hs₄, -⟩ := report_of_isDown ⟨40005, 40005⟩ hdown' hslash' hrevoke'
  have htaken₄ := chainStep_signature hs₄ (s₂.stake.getTendermintUpdates.foldl applyUpdate Example.both)
    [([102], 1000)] ((⟨40004, 40004⟩, Example.both) :: past)
  have hrest := Run.cons htaken₁ (Run.cons htaken₂ (Run.cons htaken₃ (Run.cons htaken₄ .nil)))
  refine ⟨_, [(_, .signature [102] 1000 true), (_, .stake (.endBlock 40005) rfl)], _, _, _,
    Run.append_iff.mpr ⟨_, Run.of_foldlM hops, hrest⟩, hdown, hdown', ?_⟩
  intro entry hentry
  fin_cases hentry <;> exact not_false

end Tepleton.Slashing
