import Tepleton.Baseapp.Atomicity

/-!
# Gas: `types/gas.go`, `store/gaskvstore.go` and what `runTx` reports

A meter adds up what is consumed in an `int64` and compares the sum with its limit.  The sum is exact
until it wraps around, and then a call can pass that is far over the limit (`gas_exact_iff`).

`runTx` adds the reading of the meter after every message to `GasUsed`, but the meter itself has
counted the messages before.  So only the gas of a single message is reported as it was used, and only
if it does not fail (`reported_gas_iff`).
-/

namespace Tepleton.Baseapp

open Lib Store

theorem int64_int64_add (x y : ℤ) : int64 (int64 x + y) = int64 (x + y) := Int.bmod_add_bmod

/-! ## The meter -/

/-- A call of a `gasKVStore` or of one of its iterators, with the value that is read or written. -/
inductive GasStoreCall
  | get (value : Option Bytes)
  | set (value : Bytes)
  | has
  | delete
  | iteratorKey
  | iteratorValue (value : Bytes)

/-- The calls of `ConsumeGas` it makes, unless one of them panics: amounts and descriptors. -/
def GasStoreCall.charges : GasStoreCall → List (ℤ × String)
  | .get value => [(10, "GetFlat"), (value.elim 0 fun bz => (bz.length : ℤ), "ReadPerByte")]
  | .set value => [(10, "SetFlat"), (int64 (10 * value.length), "SetPerByte")]
  | .has => [(10, "Has")]
  | .delete => []
  | .iteratorKey => [(5, "KeyFlat")]
  | .iteratorValue value => [(10, "ValueFlat"), (value.length, "ValuePerByte")]

/-- The meter after calls of `ConsumeGas`, some of which may have panicked. -/
def GasMeter.after (meter : GasMeter) (calls : List (ℤ × String)) : GasMeter :=
  calls.foldl (fun meter call => (meter.consumeGas call.1 call.2).2) meter

/-- The sum of the amounts. -/
def gasTotal (calls : List (ℤ × String)) : ℤ := (calls.map Prod.fst).sum

/-- Every call returns exactly if the sum of the amounts so far is at most the limit, and then the
meter has this sum. -/
def MetersExactly (limit : ℤ) (calls : List (ℤ × String)) : Prop :=
  ∀ before call, before ++ [call] <+: calls →
    let outcome := ((newGasMeter limit).after before).consumeGas call.1 call.2
    (outcome.1 = .ok () ↔ gasTotal (before ++ [call]) ≤ limit) ∧
      (outcome.1 = .ok () → outcome.2.consumed = gasTotal (before ++ [call]))

theorem consumeGas_eq (meter : GasMeter) (amount : ℤ) (descriptor : String) :
    (meter.consumeGas amount descriptor).2 =
      { meter with consumed := int64 (meter.consumed + amount) } := by
  unfold GasMeter.consumeGas
  dsimp only
  split_ifs <;> rfl

/-- The meter has the sum, reduced to an `int64`. -/
theorem after_eq (limit : ℤ) (calls : List (ℤ × String)) :
    (newGasMeter limit).after calls = ⟨some limit, int64 (gasTotal calls)⟩ := by
  induction calls using List.reverseRecOn with
  | nil => rfl
  | append_singleton before call ih =>
    rw [GasMeter.after] at ih ⊢
    rw [List.foldl_append, ih, List.foldl_cons, List.foldl_nil, consumeGas_eq, int64_int64_add]
    simp [gasTotal]

/-- A meter is exact as long as no sum above the limit is at most the limit as an `int64`. -/
theorem gas_exact_iff {limit : ℤ} (hlimit : limit < 2 ^ 63) {calls : List (ℤ × String)}
    (hamounts : ∀ call ∈ calls, 0 ≤ call.1 ∧ call.1 < 2 ^ 63) :
    MetersExactly limit calls ↔ ∀ before call, before ++ [call] <+: calls →
      limit < gasTotal (before ++ [call]) → limit < int64 (gasTotal (before ++ [call])) := by
  refine forall₂_congr fun before call => forall_congr' fun hbefore => ?_
  have hsum : gasTotal (before ++ [call]) = gasTotal before + call.1 := by simp [gasTotal]
  have hnonneg : 0 ≤ gasTotal (before ++ [call]) := by
    refine List.sum_nonneg fun amount hamount => ?_
    obtain ⟨charge, hcharge, rfl⟩ := List.mem_map.mp hamount
    exact (hamounts charge (hbefore.subset hcharge)).1
  have hreturns : (((newGasMeter limit).after before).consumeGas call.1 call.2).1 = .ok () ↔
      int64 (gasTotal (before ++ [call])) ≤ limit := by
    rw [after_eq, GasMeter.consumeGas, int64_int64_add, ← hsum]
    simp only [Option.any_some, decide_eq_true_eq]
    split_ifs with hover
    · simpa using hover
    · simpa using hover
  have hfits : gasTotal (before ++ [call]) ≤ limit →
      int64 (gasTotal (before ++ [call])) = gasTotal (before ++ [call]) :=
    fun hle => int64_eq_self (by omega) (by omega)
  simp only [hreturns]
  simp only [consumeGas_eq, after_eq, int64_int64_add, ← hsum]
  constructor
  · rintro ⟨hiff, -⟩ hover
    exact not_le.mp fun hle => hover.not_ge (hiff.mp hle)
  · intro hover
    have hiff : int64 (gasTotal (before ++ [call])) ≤ limit ↔ gasTotal (before ++ [call]) ≤ limit :=
      ⟨fun hle => not_lt.mp fun hlt => (hover hlt).not_ge hle, fun hle => (hfits hle).trans_le hle⟩
    exact ⟨hiff, fun hle => hfits (hiff.mp hle)⟩

/-- A write of three bytes and a read of two with just enough gas. -/
theorem gas_exact_iff_example :
    MetersExactly 52 ([GasStoreCall.set [1, 2, 3], .get (some [1, 2])].flatMap
      GasStoreCall.charges) := by
  refine (gas_exact_iff (by norm_num) (by decide)).mpr fun before call hbefore hover => ?_
  have hle : gasTotal (before ++ [call]) ≤ 52 := by
    have hmem := (List.mem_inits _ _).mpr hbefore
    revert hmem
    generalize before ++ [call] = calls
    revert calls
    decide
  exact absurd hover hle.not_gt

/-- The limit is the largest `int64`, and half of the range is consumed twice: the second call passes,
with a negative amount on the meter. -/
theorem gas_wraps_around :
    let first := (newGasMeter (2 ^ 63 - 1)).consumeGas (2 ^ 62) "first"
    let second := first.2.consumeGas (2 ^ 62) "second"
    second.1 = .ok () ∧ second.2.consumed = -2 ^ 63 := by
  decide

/-! ## The message loop -/

variable {Key Tx Msg : Type} [DecidableEq Key] (app : Application Key Tx Msg)

/-- The messages that run, up to the first one that fails: the gas consumed after each, and its
result.  The list ends before a message that panics or has no handler. -/
def ranMsgs (ctx : Context) : List Msg → Machine Key → List (ℤ × Result)
  | [], _ => []
  | msg :: msgs, machine =>
    match app.route (app.msgType msg) with
    | none => []
    | some handler =>
      match (handler ctx msg).run app.db machine with
      | (.error _, _) => []
      | (.ok result, machine) =>
        (machine.gasMeter.consumed, result) :: if result.isOK then ranMsgs ctx msgs machine else []

variable {app} {ran : List (ℤ × Result)} {consumed : ℤ} {result : Result}

/-- What the loop makes of its last message. -/
theorem runMsgs_gasUsed {ctx : Context} {msgs : List Msg} {machine : Machine Key}
    (hran : ranMsgs app ctx msgs machine = ran ++ [(consumed, result)])
    (hreturns : result.isOK = false ∨ ran.length + 1 = msgs.length) (total i : ℕ)
    (progress : Progress) :
    ∃ outcome, (runMsgs app ctx total i msgs progress machine).1 = .ok outcome ∧
      ∀ gasUsed, gasUsed =
          int64 (progress.finalResult.gasUsed + ((ran.map Prod.fst).sum + consumed)) →
        (result.isOK = true ∧ ∃ progress', outcome = .inr progress' ∧
            progress'.finalResult.gasUsed = gasUsed) ∨
          (result.isOK = false ∧ ∃ j, outcome = .inl (failedResult total j gasUsed result)) := by
  induction msgs generalizing ran progress i machine with
  | nil => simp [ranMsgs] at hran
  | cons msg msgs ih =>
    rw [ranMsgs] at hran
    rw [runMsgs]
    cases hroute : app.route (app.msgType msg) with
    | none => simp [hroute] at hran
    | some handler =>
      simp only [hroute] at hran ⊢
      cases hrun : (handler ctx msg).run app.db machine with
      | mk outcome machine' =>
        cases outcome with
        | error value => simp [hrun] at hran
        | ok result' =>
          simp only [hrun] at hran ⊢
          cases ran with
          | nil =>
            rw [List.nil_append, List.cons.injEq, Prod.mk.injEq] at hran
            obtain ⟨⟨rfl, rfl⟩, hrest⟩ := hran
            cases hok : result'.isOK with
            | false =>
              refine ⟨_, rfl, fun gasUsed hgas => .inr ⟨rfl, i, ?_⟩⟩
              rw [hgas]
              simp [Progress.add]
            | true =>
              obtain rfl : msgs = [] := by
                simpa [hok, eq_comm] using hreturns
              refine ⟨_, rfl, fun gasUsed hgas => .inl ⟨rfl, _, rfl, ?_⟩⟩
              rw [hgas]
              simp [Progress.add]
          | cons first ran =>
            rw [List.cons_append, List.cons.injEq] at hran
            obtain ⟨rfl, hrest⟩ := hran
            cases hok : result'.isOK with
            | false => simp [hok] at hrest
            | true =>
              rw [hok, if_pos rfl] at hrest
              obtain ⟨outcome, heq, hout⟩ := ih hrest (by simpa using hreturns) (i + 1)
                (progress.add i machine'.gasMeter.consumed result')
              refine ⟨outcome, heq, fun gasUsed hgas => hout gasUsed ?_⟩
              rw [hgas, Progress.add, int64_int64_add]
              simp [add_assoc]

theorem runInContext_of_ante {mode : RunTxMode} {ctx newCtx : Context} {tx : Tx}
    {machine machine' : Machine Key} {newMeter : Option GasMeter}
    (h : runAnte app ctx tx machine = (some (newCtx, newMeter), machine')) :
    runInContext app mode ctx tx (app.getMsgs tx) machine =
      runOnCache app mode newCtx newMeter (app.getMsgs tx) machine' := by
  revert h
  rw [runAnte, runInContext]
  cases app.anteHandler with
  | none =>
    intro h
    cases h
    rfl
  | some anteHandler =>
    simp only
    intro h
    split at h
    · cases h
    · rename_i outcome _ hrun
      split_ifs at h with habort
      · cases h
      simp only [hrun, if_neg habort]
      obtain ⟨hnew, rfl⟩ := Prod.mk.inj h
      rw [Option.some.injEq] at hnew
      cases hctx : outcome.newCtx with
      | none =>
        rw [hctx] at hnew
        cases hnew
        rfl
      | some new =>
        rw [hctx] at hnew
        cases hnew
        rfl

/-- Once the messages have run, the gas reported is that of the meter exactly if it was zero after
every message but the last; a single message that fails must report it itself. -/
theorem reported_gas_iff {mode : RunTxMode} {txBytes : Option Bytes} {tx : Tx} {a : BaseApp Key}
    {st : State Key} {newCtx : Context} {newMeter : Option GasMeter} {machine : Machine Key}
    (hvalid : Valid app tx)
    (hst : (if mode = .deliver then a.deliverState else a.checkState) = some st)
    (hante : runAnte app (txContext mode txBytes a.signedValidators st.ctx) tx (st.machine a.cms) =
      (some (newCtx, newMeter), machine))
    (hran : ranMsgs app newCtx (app.getMsgs tx) (machine.cacheMultiStore newMeter) =
      ran ++ [(consumed, result)])
    (hreturns : result.isOK = false ∨ ran.length + 1 = (app.getMsgs tx).length)
    (hfits : -2 ^ 63 ≤ consumed ∧ consumed < 2 ^ 63) :
    (runTx app mode txBytes tx a).1.gasUsed = consumed ↔
      if (app.getMsgs tx).length = 1 ∧ result.isOK = false then result.gasUsed = consumed
      else 2 ^ 64 ∣ (ran.map Prod.fst).sum := by
  have hrunTx : (runTx app mode txBytes tx a).1 =
      (runOnCache app mode newCtx newMeter (app.getMsgs tx) machine).1 := by
    have hon : (runTxOn app mode txBytes tx a.signedValidators a.cms (some st)).1 =
        (runOnCache app mode newCtx newMeter (app.getMsgs tx) machine).1 := by
      rw [← runInContext_of_ante hante]
      simp only [runTxOn, basicChecks_of_valid app hvalid]
    rw [runTx]
    split_ifs at hst ⊢
    · rw [hst]
      exact hon
    · rw [hst]
      exact hon
  obtain ⟨outcome, hloop, hout⟩ := runMsgs_gasUsed hran hreturns (app.getMsgs tx).length 0 {}
  have hgas := hout _ rfl
  have hdivides : int64 ((ran.map Prod.fst).sum + consumed) = consumed ↔
      2 ^ 64 ∣ (ran.map Prod.fst).sum := by
    obtain ⟨k, hk⟩ := exists_int64_eq ((ran.map Prod.fst).sum + consumed)
    constructor
    · intro heq
      exact ⟨-k, by omega⟩
    · rintro ⟨m, hm⟩
      rw [int64_eq_int64 m (by rw [hm, add_comm]), int64_eq_self hfits.1 hfits.2]
  rw [hrunTx, runOnCache]
  generalize runMsgs app newCtx (app.getMsgs tx).length 0 (app.getMsgs tx) {}
    (machine.cacheMultiStore newMeter) = run at hloop
  obtain ⟨_, inner⟩ := run
  cases hloop
  rw [show ({} : Progress).finalResult.gasUsed = 0 from rfl, zero_add] at hgas
  rcases hgas with ⟨hok, progress, rfl, hused⟩ | ⟨hfails, j, rfl⟩
  · rw [if_neg (by simp [hok]), ← hdivides]
    simp only [hused]
  · simp only [failedResult, hfails, and_true]
    by_cases hone : (app.getMsgs tx).length = 1
    · rw [if_pos hone, if_pos hone]
    · rw [if_neg hone, if_neg hone]
      exact hdivides

/-- An application whose messages consume as much gas as they say. -/
def spending : Application Unit (List Byte) Byte :=
  { notes with
    router := [("note", fun _ msg => .consumeGas msg.val "note" (.done {}))]
    anteHandler := none }

theorem reported_gas_iff_single : (runTx spending .deliver none [5] inBlock).1.gasUsed = 5 := by
  have hran : ranMsgs spending (newContext {} false) [5]
      (((newState {} false).machine inBlock.cms).cacheMultiStore none) =
      [] ++ [((5 : ℤ), ({} : Result))] := rfl
  exact (reported_gas_iff ⟨by decide, fun _ _ => rfl⟩ rfl rfl hran (.inr rfl) (by decide)).mpr
    (by decide)

/-- Two messages that consume five each: the meter says ten, fifteen are reported. -/
theorem reported_gas_twice :
    (ranMsgs spending (newContext {} false) [5, 5]
        (((newState {} false).machine inBlock.cms).cacheMultiStore none)).map
        Prod.fst = [5, 10] ∧
      (runTx spending .deliver none [5, 5] inBlock).1.gasUsed = 15 := by
  decide +kernel

end Tepleton.Baseapp
