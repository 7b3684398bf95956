import Tepleton.Stake.Effects.Frame
import Tepleton.Stake.Steps

/-!
# When provisions are minted

`EndBlocker` adds the block time to the time of the last inflation instead of subtracting, and sets
that time on a copy of the pool which it then replaces by the one `ProcessProvisions` has read again.
So the stored time is the one of genesis for ever, and from the first block on that is late enough
provisions are minted in every block.

* `step_clock`: no step changes the stored time.
* `provisions_hourly_iff`: minting is hourly and recorded exactly if at most one block of the run is
  late enough, and that one is at the time stored from the start.
-/

namespace Tepleton.Stake

open Lib

/-! ## The stored time -/

variable {st : State}

theorem step_clock {st' : State} {op : Op} (h : step st op = .ok st') :
    st.store.SameClock st'.store := by
  obtain ⟨ctx', s'⟩ := st'
  exact (step_effect h).clock

/-! ## Minting -/

/-- The block that the step ends is late enough for `EndBlocker` to call `ProcessProvisions`, given the
stored time of the last inflation. -/
def Mints (last : ℤ) (entry : State × Op) : Prop :=
  match entry.2 with
  | .endBlock _ => 3600 ≤ int64 (last + entry.1.ctx.blockTime)
  | _ => False

instance (last : ℤ) : DecidablePred (Mints last) := fun entry =>
  match entry with
  | (_, .endBlock _) => inferInstanceAs (Decidable (_ ≤ _))
  | (_, .createValidator _) | (_, .editValidator _) | (_, .delegate _) | (_, .beginUnbonding _)
  | (_, .completeUnbonding _) | (_, .beginRedelegate _) | (_, .completeRedelegate _)
  | (_, .revoke _) | (_, .unrevoke _) | (_, .slash _ _ _ _) => inferInstanceAs (Decidable False)

/-- The steps of a run at which provisions are minted, each by the time stored before it. -/
def mintingSteps (history : List (State × Op)) : List (State × Op) :=
  history.filter fun entry => Mints entry.1.store.pool.inflationLastTime entry

/-- Blocks that mint are an hour apart, and each is the time of the last inflation afterwards. -/
structure Hourly (history : List (State × Op)) : Prop where
  apart : (mintingSteps history).Pairwise fun entry later =>
    entry.1.ctx.blockTime + 3600 ≤ later.1.ctx.blockTime
  recorded : ∀ entry ∈ mintingSteps history, ∀ st', step entry.1 entry.2 = .ok st' →
    st'.store.pool.inflationLastTime = entry.1.ctx.blockTime

/-- At most one block of a run is late enough to mint, counted from a fixed time, and it is at that
time. -/
def MintsOnceAt (last : ℤ) (history : List (State × Op)) : Prop :=
  (history.filter fun entry => Mints last entry).length ≤ 1 ∧
    ∀ entry ∈ history, Mints last entry → entry.1.ctx.blockTime = last

instance (last : ℤ) (history : List (State × Op)) : Decidable (MintsOnceAt last history) :=
  inferInstanceAs (Decidable (_ ∧ _))

theorem run_clock {start : State} {history : List (State × Op)} (hrun : Run step start history st) :
    st.store.pool.inflationLastTime = start.store.pool.inflationLastTime := by
  induction hrun with
  | nil => rfl
  | snoc _ htaken ih => exact (step_clock htaken).trans ih

theorem mintingSteps_eq {start : State} {history : List (State × Op)}
    (hrun : Run step start history st) :
    mintingSteps history =
      history.filter fun entry => Mints start.store.pool.inflationLastTime entry := by
  refine List.filter_congr fun entry hentry => ?_
  obtain ⟨before, after, st', -, hbefore, -, -⟩ := hrun.of_mem hentry
  rw [run_clock hbefore]

/-- In a run of any steps, the blocks that mint are an hour apart and each is recorded as the last one
exactly if at most one block is late enough to mint by the time stored at the start, and that block is
at this very time. -/
theorem provisions_hourly_iff {start st : State} {history : List (State × Op)}
    (hrun : Run step start history st) :
    Hourly history ↔ MintsOnceAt start.store.pool.inflationLastTime history := by
  have hsteps := mintingSteps_eq hrun
  set last := start.store.pool.inflationLastTime with hlast
  have hmem : ∀ entry, entry ∈ mintingSteps history ↔ entry ∈ history ∧ Mints last entry := by
    intro entry
    rw [hsteps, List.mem_filter, decide_eq_true_eq]
  -- a step that mints leaves the stored time as it was at the start
  have hstored : ∀ entry ∈ history, ∀ st', step entry.1 entry.2 = .ok st' →
      st'.store.pool.inflationLastTime = last := by
    intro entry hentry st' hstep
    obtain ⟨before, after, -, -, hbefore, -, -⟩ := hrun.of_mem hentry
    exact (step_clock hstep).trans (run_clock hbefore)
  constructor
  · intro hhourly
    have htime : ∀ entry ∈ history, Mints last entry → entry.1.ctx.blockTime = last := by
      intro entry hentry hmints
      obtain ⟨before, after, st', -, -, hstep, -⟩ := hrun.of_mem hentry
      rw [← hhourly.recorded entry ((hmem entry).mpr ⟨hentry, hmints⟩) st' hstep]
      exact hstored entry hentry st' hstep
    refine ⟨?_, htime⟩
    rw [← hsteps]
    by_contra hmany
    -- two blocks that mint would both be at the stored time, and not an hour apart
    obtain ⟨first, second, rest, hlist⟩ : ∃ first second rest,
        mintingSteps history = first :: second :: rest := by
      match hlist : mintingSteps history with
      | [] => simp [hlist] at hmany
      | [_] => simp [hlist] at hmany
      | first :: second :: rest => exact ⟨first, second, rest, rfl⟩
    have hapart := hhourly.apart
    rw [hlist, List.pairwise_cons] at hapart
    have hgap := hapart.1 second List.mem_cons_self
    obtain ⟨hfirst, hfirstMints⟩ := (hmem first).mp (by simp [hlist])
    obtain ⟨hsecond, hsecondMints⟩ := (hmem second).mp (by simp [hlist])
    rw [htime first hfirst hfirstMints, htime second hsecond hsecondMints] at hgap
    omega
  · rintro ⟨hone, htime⟩
    rw [← hsteps] at hone
    refine ⟨?_, ?_⟩
    · match hlist : mintingSteps history with
      | [] => exact List.Pairwise.nil
      | [entry] => exact List.pairwise_singleton _ entry
      | first :: second :: rest =>
        rw [hlist] at hone
        simp at hone
    · intro entry hentry st' hstep
      obtain ⟨hentry, hmints⟩ := (hmem entry).mp hentry
      rw [hstored entry hentry st' hstep, htime entry hentry hmints]

namespace Example

/-- A chain with enough tokens for provisions to be seen, at some time of the last inflation. -/
def richGenesis (inflationLastTime : ℤ) : State :=
  ⟨⟨1, inflationLastTime⟩, emptyStore defaultParams
    { initialPool with looseTokens := 1000000000, inflationLastTime } accounts⟩

end Example

/-- A chain that stops after the one block at its stored time. -/
theorem provisions_hourly_iff_oneBlock :
    ∃ st, Run step (Example.richGenesis 1800)
        (Run.historyOf step (Example.richGenesis 1800) [.endBlock 5400]) st ∧
      (mintingSteps (Run.historyOf step (Example.richGenesis 1800) [.endBlock 5400])).length = 1 ∧
      Hourly (Run.historyOf step (Example.richGenesis 1800) [.endBlock 5400]) := by
  obtain ⟨st, hrun, -⟩ := Run.of_leadsTo step (Example.richGenesis 1800) [.endBlock 5400]
    (fun _ => true) (by decide +kernel)
  exact ⟨st, hrun, by decide +kernel, (provisions_hourly_iff hrun).mpr (by decide +kernel)⟩

/-- Blocks five seconds apart both mint, once the block time has reached an hour, and the stored time is
zero after all of them. -/
theorem provisions_every_block :
    ∃ st, Run step (Example.richGenesis 0) (Run.historyOf step (Example.richGenesis 0)
        [.endBlock 3600, .endBlock 3605, .endBlock 3610]) st ∧
      (mintingSteps (Run.historyOf step (Example.richGenesis 0)
        [.endBlock 3600, .endBlock 3605, .endBlock 3610])).map (fun entry =>
          (entry.1.ctx.blockTime, entry.1.store.pool.looseTokens)) =
        [(3600, 1000000000), (3605, 1000007987)] ∧
      1000007987 < st.store.pool.looseTokens ∧ st.store.pool.inflationLastTime = 0 ∧
      ¬ Hourly (Run.historyOf step (Example.richGenesis 0)
        [.endBlock 3600, .endBlock 3605, .endBlock 3610]) := by
  obtain ⟨st, hrun, htest⟩ := Run.of_leadsTo step (Example.richGenesis 0)
    [.endBlock 3600, .endBlock 3605, .endBlock 3610]
    (fun st => decide (1000007987 < st.store.pool.looseTokens ∧
      st.store.pool.inflationLastTime = 0)) (by decide +kernel)
  obtain ⟨hloose, hlast⟩ := of_decide_eq_true htest
  refine ⟨st, hrun, by decide +kernel, hloose, hlast, fun hhourly => ?_⟩
  have hapart := hhourly.apart
  revert hapart
  decide +kernel

end Tepleton.Stake
