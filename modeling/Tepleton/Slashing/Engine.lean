import Tepleton.Slashing.Counting
import Tepleton.Stake.Invariants.Updates

/-!
# The consensus engine: when `BeginBlocker` is called with what

The validators of a block are those that the updates returned at the ends of the blocks before it make
up.  They sign the block, and at the beginning of the next one the engine reports each of them, whether
it has signed or not, with the power it had; then it hands over evidence about validators of earlier
blocks.  So the reports at height `h` are about the updates up to height `h - 2`: a validator that is
revoked in a block is reported in the next one too.

`chainStep` is `step` with an engine that keeps to this.  The second half builds long runs: blocks in
which all validators are reported and nothing else happens.
-/

namespace Tepleton.Slashing

open Lib Stake

/-! ## The engine -/

/-- What the engine keeps: the validators of the current block with their powers, the reports still to
be made in it, and the validators of the blocks before. -/
structure Engine where
  current : KVStore PubKey ℤ
  due : List (PubKey × ℤ)
  past : List (Ctx × KVStore PubKey ℤ)

/-- The key belonged to a validator of the block that is accused, not too long ago. -/
def Engine.Accuses (e : Engine) (blockTime : ℤ) (pubkey : PubKey)
    (infractionHeight timestamp power : ℤ) : Prop :=
  ∃ block ∈ e.past, block.1 = ⟨infractionHeight, timestamp⟩ ∧ block.2[pubkey]? = some power ∧
    blockTime - timestamp ≤ maxEvidenceAge

instance (e : Engine) (blockTime : ℤ) (pubkey : PubKey) (infractionHeight timestamp power : ℤ) :
    Decidable (e.Accuses blockTime pubkey infractionHeight timestamp power) :=
  inferInstanceAs (Decidable (∃ block ∈ e.past, _))

/-- The engine after a step, if it is one that may come now: the reports first, in the order of the
keys, then evidence and messages, then the end of the block. -/
def Engine.next (e : Engine) (st : State) : Op → Option Engine
  | .signature pubkey power _ =>
    match e.due with
    | [] => none
    | report :: due => if report = (pubkey, power) then some { e with due } else none
  | .doubleSign pubkey infractionHeight timestamp power =>
    if e.due = [] ∧ e.Accuses st.ctx.blockTime pubkey infractionHeight timestamp power then some e
    else none
  | .stake (.endBlock _) _ =>
    if e.due = [] then
      some ⟨st.store.stake.getTendermintUpdates.foldl applyUpdate e.current, e.current.toList,
        (st.ctx, e.current) :: e.past⟩
    else none
  | _ => if e.due = [] then some e else none

/-- The two stores and the engine. -/
structure Chain where
  state : State
  engine : Engine

/-- Why there is no step: the engine does not call, or the call fails. -/
inductive Refusal
  | notNow
  | fault (fault : Fault)
  deriving DecidableEq, Repr

/-- One step of the chain with its engine. -/
def chainStep (address : PubKey → Address) (c : Chain) (op : Op) : Except Refusal Chain :=
  match c.engine.next c.state op with
  | none => .error .notNow
  | some engine =>
    match step address c.state op with
    | .error fault => .error (.fault fault)
    | .ok state => .ok ⟨state, engine⟩

variable {address : PubKey → Address}

theorem chainStep_eq_ok {c c' : Chain} {op : Op} :
    chainStep address c op = .ok c' ↔ c.engine.next c.state op = some c'.engine ∧
      step address c.state op = .ok c'.state := by
  obtain ⟨state', engine'⟩ := c'
  rw [chainStep]
  cases hnext : c.engine.next c.state op with
  | none => simp
  | some engine =>
    cases hstep : step address c.state op with
    | error fault => simp
    | ok state => simp [and_comm]

/-- The first block of a chain without validators. -/
def initialChain (ctx : Ctx) (params : Params) (pool : Pool) (accounts : Auth.AccountStore) : Chain :=
  ⟨initial ctx params pool accounts, ⟨∅, [], []⟩⟩

theorem run_state {start c : Chain} {history : List (Chain × Op)}
    (hrun : Run (chainStep address) start history c) :
    Run (step address) start.state (history.map fun entry => (entry.1.state, entry.2)) c.state :=
  hrun.map Chain.state fun hstep => (chainStep_eq_ok.mp hstep).2

/-! ## Blocks in which nothing happens -/

/-- The end of a block leaves the store alone. -/
structure Idle (s : Stake.Store) : Prop where
  provisions : s.processProvisions = .ok s.pool
  counter : s.intraTxCounter = 0
  updates : s.tendermintUpdates = ∅

instance (s : Stake.Store) : Decidable (Idle s) :=
  decidable_of_iff (passes (fun pool => decide (pool = s.pool)) s.processProvisions = true ∧
      s.intraTxCounter = 0 ∧ s.tendermintUpdates.toList = []) <| by
    constructor
    · rintro ⟨hprovisions, hcounter, hupdates⟩
      obtain ⟨pool, hpool, hsame⟩ := exists_of_passes hprovisions
      refine ⟨?_, hcounter, Std.ExtTreeMap.toList_inj.mp hupdates⟩
      rw [hpool, of_decide_eq_true hsame]
    · rintro ⟨hprovisions, hcounter, hupdates⟩
      rw [hprovisions, hupdates]
      exact ⟨decide_eq_true rfl, hcounter, rfl⟩

theorem step_endBlock_idle {st : State} (h : Idle st.store.stake)
    (hheight : st.ctx.blockHeight + 1 < 2 ^ 63) (blockTime : ℤ) :
    step address st (.stake (.endBlock blockTime) rfl) =
      .ok ⟨⟨st.ctx.blockHeight + 1, blockTime⟩, st.store⟩ := by
  obtain ⟨ctx, ⟨stake, infos, bits⟩⟩ := st
  obtain ⟨hprovisions, hcounter, hupdates⟩ := h
  dsimp only at hprovisions hcounter hupdates hheight
  have hpool : endBlockPool ctx stake = .ok stake.pool := by
    rw [endBlockPool, hprovisions, ite_self]
  have hstore : ((stake.setPool stake.pool).setIntraTxCounter 0).clearTendermintUpdates = stake := by
    rw [← hcounter]
    show { stake with tendermintUpdates := ∅ } = stake
    rw [← hupdates]
  simp only [step, Stake.step, endBlocker, hpool, Ctx.next, if_pos hheight, bind, Except.bind, pure,
    Except.pure, hstore]

theorem idle_blocks {store : Store} (h : Idle store.stake) (blockTime height : ℤ) (n : ℕ)
    (hheight : height + n < 2 ^ 63) :
    (List.replicate n (.stake (.endBlock blockTime) rfl : Op)).foldlM (step address)
        ⟨⟨height, blockTime⟩, store⟩ = .ok ⟨⟨height + n, blockTime⟩, store⟩ := by
  induction n with
  | zero =>
    rw [Nat.cast_zero, add_zero]
    rfl
  | succ n ih =>
    push_cast at hheight ⊢
    rw [List.replicate_succ', ← add_assoc]
    exact foldlM_append_of_ok (ih (by omega)) (foldlM_cons_of_ok
      (step_endBlock_idle h (by dsimp only; omega) blockTime) List.foldlM_nil)

theorem countSignature_startHeight (address : PubKey → Address) (height : ℤ) (s : Store)
    (pubkey : PubKey) (signed : Bool) :
    (countSignature address height s pubkey signed).2.startHeight =
      (s.getValidatorSigningInfo (address pubkey)).elim height ValidatorSigningInfo.startHeight := by
  cases hinfo : s.getValidatorSigningInfo (address pubkey) with
  | none =>
    simp only [countSignature, countSignatureIn, hinfo, Option.getD_none, Option.elim_none]
    split_ifs <;> rfl
  | some info =>
    simp only [countSignature, countSignatureIn, hinfo, Option.getD_some, Option.elim_some]
    split_ifs <;> rfl

/-- The height of the first report about a key. -/
def started (address : PubKey → Address) (s : Store) (pk : PubKey) : Option ℤ :=
  (s.getValidatorSigningInfo (address pk)).map ValidatorSigningInfo.startHeight

/-- The window that begins with the first report about a key is not over at the height. -/
def InWindow (address : PubKey → Address) (height : ℤ) (s : Store) (pk : PubKey) : Prop :=
  ∀ first ∈ started address s pk, first ≤ height ∧ height ≤ first + window

instance (address : PubKey → Address) (height : ℤ) (s : Store) (pk : PubKey) :
    Decidable (InWindow address height s pk) :=
  inferInstanceAs (Decidable (∀ first ∈ started address s pk, _))

/-- The first reports stay what they are, and new ones are recent enough at the height. -/
structure KeepsStarts (address : PubKey → Address) (height : ℤ) (s s' : Store) : Prop where
  started {pk : PubKey} {first : ℤ} (h : started address s pk = some first) :
    started address s' pk = some first
  inWindow {pk : PubKey} (h : InWindow address height s pk) : InWindow address height s' pk

section Reports

variable {ctx : Ctx} {s s' s'' : Store} {stake : Stake.Store} {pk pubkey : PubKey} {power : ℤ}
  {signed : Bool} {height : ℤ}

theorem KeepsStarts.trans (h : KeepsStarts address height s s')
    (h' : KeepsStarts address height s' s'') : KeepsStarts address height s s'' :=
  ⟨fun hfirst => h'.started (h.started hfirst), fun hwindow => h'.inWindow (h.inWindow hwindow)⟩

theorem started_report
    (h : handleValidatorSignature address ctx s pubkey power signed = .ok s') (pk : PubKey) :
    started address s' pk = if address pk = address pubkey
      then some ((started address s pk).getD ctx.blockHeight) else started address s pk := by
  obtain ⟨⟨jailedUntil, hwritten⟩, -, hother⟩ := handleValidatorSignature_writes h
  split_ifs with hpk
  · rw [started, started, hpk, hwritten, Option.map_some, countSignature_startHeight]
    cases s.getValidatorSigningInfo (address pubkey) <;> rfl
  · rw [started, hother _ hpk]
    rfl

theorem KeepsStarts.report
    (h : handleValidatorSignature address ctx s pubkey power signed = .ok s')
    (hnow : ctx.blockHeight ≤ height) (hsoon : height ≤ ctx.blockHeight + window) :
    KeepsStarts address height s s' := by
  constructor
  · intro pk first hfirst
    rw [started_report h, hfirst]
    split_ifs <;> rfl
  · intro pk hwindow first hfirst
    rw [started_report h, Option.mem_def] at hfirst
    split_ifs at hfirst
    · cases hstarted : Slashing.started address s pk with
      | none =>
        rw [hstarted] at hfirst
        cases hfirst
        exact ⟨hnow, hsoon⟩
      | some first' =>
        rw [hstarted] at hfirst
        cases hfirst
        exact hwindow _ hstarted
    · exact hwindow _ hfirst

theorem chainStep_signature
    (h : handleValidatorSignature address ctx s pubkey power signed = .ok s')
    (current : KVStore PubKey ℤ) (rest : List (PubKey × ℤ)) (past : List (Ctx × KVStore PubKey ℤ)) :
    chainStep address ⟨⟨ctx, s⟩, ⟨current, (pubkey, power) :: rest, past⟩⟩
        (.signature pubkey power signed) = .ok ⟨⟨ctx, s'⟩, ⟨current, rest, past⟩⟩ := by
  refine chainStep_eq_ok.mpr ⟨by simp [Engine.next], ?_⟩
  rw [step, h]
  rfl

theorem chainStep_stake {ctx' : Ctx} {op : Stake.Op} (hop : isKeeperCall op = false)
    {engine engine' : Engine} (hstep : Stake.step ⟨ctx, s.stake⟩ op = .ok ⟨ctx', stake⟩)
    (hnext : engine.next ⟨ctx, s⟩ (.stake op hop) = some engine') :
    chainStep address ⟨⟨ctx, s⟩, engine⟩ (.stake op hop) =
      .ok ⟨⟨ctx', { s with stake }⟩, engine'⟩ := by
  refine chainStep_eq_ok.mpr ⟨hnext, ?_⟩
  rw [step, hstep]
  rfl

/-- A report in the window of the key has no consequences. -/
theorem InWindow.report (h : InWindow address height s pk) (hnow : ctx.blockHeight ≤ height)
    (hlow : 0 ≤ ctx.blockHeight) (hhigh : height + window < 2 ^ 63) (power : ℤ) (signed : Bool) :
    ∃ s', handleValidatorSignature address ctx s pk power signed = .ok s' ∧ s'.stake = s.stake := by
  have hnot : ¬ (countSignature address ctx.blockHeight s pk signed).2.IsDown ctx.blockHeight := by
    rintro ⟨hlate, -⟩
    rw [countSignature_startHeight, signedBlocksWindow_eq] at hlate
    cases hinfo : s.getValidatorSigningInfo (address pk) with
    | none =>
      rw [hinfo, Option.elim_none, int64_eq_self (by omega) (by omega)] at hlate
      omega
    | some info =>
      obtain ⟨hfirst, hlast⟩ := h info.startHeight (by rw [started, hinfo]; rfl)
      rw [hinfo, Option.elim_some, int64_eq_self (by omega) (by omega)] at hlate
      omega
  exact ⟨_, if_neg hnot, countSignature_stake address ctx.blockHeight s pk signed⟩

/-- A report about a validator that is down ends with a slash. -/
theorem report_of_isDown (ctx : Ctx) {slashed : Stake.Store}
    (hdown : (countSignature address ctx.blockHeight s pk signed).2.IsDown ctx.blockHeight)
    (hslash : s.stake.slash ctx pk ctx.blockHeight power slashFractionDowntime = .ok slashed)
    (hrevoke : slashed.revoke ctx pk = .ok stake) :
    ∃ s', handleValidatorSignature address ctx s pk power signed = .ok s' ∧ s'.stake = stake := by
  rw [← countSignatureIn_stake address signedBlocksWindow ctx.blockHeight s pk signed] at hslash
  have hdown' : (countSignatureIn address signedBlocksWindow ctx.blockHeight s pk signed).2.IsDownIn
      signedBlocksWindow minSignedPerWindow ctx.blockHeight := hdown
  simp only [handleValidatorSignature, handleValidatorSignatureIn, if_pos hdown', hslash, hrevoke,
    bind, Except.bind, pure, Except.pure]
  exact ⟨_, rfl, rfl⟩

/-- The reports that are due, each as `flag` says. -/
def allReports (flag : PubKey → Bool) (due : List (PubKey × ℤ)) : List Op :=
  due.map fun report => .signature report.1 report.2 (flag report.1)

/-- The reports of a block about validators whose windows are not over. -/
theorem quiet_reports (flag : PubKey → Bool) (hlow : 0 ≤ ctx.blockHeight)
    (hnow : ctx.blockHeight ≤ height) (hsoon : height ≤ ctx.blockHeight + window)
    (hhigh : height + window < 2 ^ 63) (current : KVStore PubKey ℤ) {due : List (PubKey × ℤ)}
    (past : List (Ctx × KVStore PubKey ℤ))
    (hdue : ∀ report ∈ due, InWindow address height s report.1) :
    ∃ s', (allReports flag due).foldlM (chainStep address) ⟨⟨ctx, s⟩, ⟨current, due, past⟩⟩ =
        .ok ⟨⟨ctx, s'⟩, ⟨current, [], past⟩⟩ ∧
      s'.stake = s.stake ∧ KeepsStarts address height s s' := by
  induction due generalizing s with
  | nil => exact ⟨s, rfl, rfl, id, id⟩
  | cons report due ih =>
    obtain ⟨hfirst, hdue⟩ := List.forall_mem_cons.mp hdue
    obtain ⟨s₁, hs₁, hstake₁⟩ := hfirst.report hnow hlow hhigh report.2 (flag report.1)
    have hkeeps := KeepsStarts.report hs₁ hnow hsoon
    obtain ⟨s', hs', hstake', hkeeps'⟩ := ih fun report hreport => hkeeps.inWindow (hdue report hreport)
    exact ⟨s', foldlM_cons_of_ok (chainStep_signature hs₁ current due past) hs',
      hstake'.trans hstake₁, hkeeps.trans hkeeps'⟩

/-- The calls of a block in which nothing happens, after which one begins at `blockTime`. -/
def uneventfulBlock (flag : PubKey → Bool) (vals : KVStore PubKey ℤ) (blockTime : ℤ) : List Op :=
  allReports flag vals.toList ++ [.stake (.endBlock blockTime) rfl]

/-- The calls of `n` such blocks. -/
def uneventfulBlocks (flag : PubKey → Bool) (vals : KVStore PubKey ℤ) (start : ℤ) (n : ℕ) : List Op :=
  (List.range n).flatMap fun i => uneventfulBlock flag vals (start + (i + 1 : ℕ))

theorem length_uneventfulBlocks (flag : PubKey → Bool) (vals : KVStore PubKey ℤ) (start : ℤ) (n : ℕ) :
    (uneventfulBlocks flag vals start n).length = n * (vals.toList.length + 1) := by
  simp [uneventfulBlocks, uneventfulBlock, allReports, List.length_flatMap]

/-- A long run of blocks in which nothing happens. -/
theorem uneventful_blocks (flag : PubKey → Bool) {vals : KVStore PubKey ℤ} {start : ℤ}
    (past : List (Ctx × KVStore PubKey ℤ)) (hidle : Idle s.stake)
    (hvals : ∀ report ∈ vals.toList, InWindow address height s report.1) (hlow : 0 ≤ start)
    (hsoon : height ≤ start + window) (hhigh : height + window < 2 ^ 63) (n : ℕ)
    (hn : start + n ≤ height + 1) :
    ∃ s' past', (uneventfulBlocks flag vals start n).foldlM (chainStep address)
        ⟨⟨⟨start, start⟩, s⟩, ⟨vals, vals.toList, past⟩⟩ =
          .ok ⟨⟨⟨start + n, start + n⟩, s'⟩, ⟨vals, vals.toList, past'⟩⟩ ∧
      s'.stake = s.stake ∧ KeepsStarts address height s s' := by
  induction n with
  | zero =>
    rw [Nat.cast_zero, add_zero]
    exact ⟨s, past, rfl, rfl, id, id⟩
  | succ n ih =>
    push_cast at hn
    obtain ⟨s₁, past₁, hblocks, hstake₁, hkeeps₁⟩ := ih (by omega)
    have hnow : (⟨start + n, start + n⟩ : Ctx).blockHeight ≤ height := by
      dsimp only
      omega
    obtain ⟨s', hreports, hstake', hkeeps'⟩ := quiet_reports flag (by dsimp only; omega) hnow
      (by dsimp only; omega) hhigh vals past₁
      fun report hreport => hkeeps₁.inWindow (hvals report hreport)
    have hidle' : Idle s'.stake := by
      rw [hstake', hstake₁]
      exact hidle
    have hupdates : s'.stake.getTendermintUpdates = [] := by
      rw [Stake.Store.getTendermintUpdates, hidle'.updates]
      rfl
    have hend : chainStep address ⟨⟨⟨start + n, start + n⟩, s'⟩, ⟨vals, [], past₁⟩⟩
        (.stake (.endBlock (start + (n + 1 : ℕ))) rfl) =
        .ok ⟨⟨⟨start + (n + 1 : ℕ), start + (n + 1 : ℕ)⟩, s'⟩,
          ⟨vals, vals.toList, (⟨start + n, start + n⟩, vals) :: past₁⟩⟩ := by
      have hwindow := window_eq
      have hstep := @step_endBlock_idle address ⟨⟨start + n, start + n⟩, s'⟩ hidle'
        (by dsimp only; omega) (start + (n + 1 : ℕ))
      rw [chainStep_eq_ok, hstep, Nat.cast_succ, ← add_assoc]
      exact ⟨by simp [Engine.next, hupdates], rfl⟩
    refine ⟨s', (⟨start + n, start + n⟩, vals) :: past₁, ?_, hstake'.trans hstake₁,
      hkeeps₁.trans hkeeps'⟩
    rw [uneventfulBlocks, List.range_succ, List.flatMap_append, List.flatMap_singleton]
    exact foldlM_append_of_ok hblocks
      (foldlM_append_of_ok hreports (foldlM_cons_of_ok hend List.foldlM_nil))

end Reports

end Tepleton.Slashing
