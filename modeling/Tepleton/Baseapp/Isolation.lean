import Tepleton.Lib.Unwinding
import Tepleton.Baseapp.App

/-!
# Checks, simulations and queries do not influence consensus

Every program in `runTx` works on caches, and the only cache it writes lies over another cache.  So
`runTx` never changes the committed stores, and in the check and simulate modes it changes nothing
but the check state.  The calls of the consensus engine never read the check state.  Leaving out any
`CheckTx`, `Simulate` and `Query` calls of a run therefore leaves all that the consensus engine sees
as it is.
-/

namespace Tepleton.Baseapp

open Lib Store

variable {Key Tx Msg : Type} [DecidableEq Key] (app : Application Key Tx Msg)

/-! ## Transactions and the committed stores -/

theorem runMsgs_sameBases (ctx : Context) (total i : ℕ) (msgs : List Msg) (progress : Progress)
    (machine : Machine Key) (hcached : ∀ store, 0 < (machine.ms store).depth) :
    SameBases machine.ms (runMsgs app ctx total i msgs progress machine).2.ms := by
  induction msgs generalizing i progress machine with
  | nil => exact fun store => .refl _
  | cons msg msgs ih =>
    rw [runMsgs]
    cases app.route (app.msgType msg) with
    | none => exact fun store => .refl _
    | some handler =>
      have hsame := run_sameBases app.db (handler ctx msg) hcached
      simp only
      split
      · rename_i value machine' hrun
        rw [hrun] at hsame
        exact hsame
      · rename_i result machine' hrun
        rw [hrun] at hsame
        split_ifs
        · exact hsame.trans (ih _ _ _ (hsame.cached hcached))
        · exact hsame

variable {machine : Machine Key} {call : Call Tx}

omit [DecidableEq Key] in
theorem leave_sameBases {inner : Machine Key} {newMeter : Option GasMeter}
    (h : SameBases (machine.cacheMultiStore newMeter).ms inner.ms) :
    SameBases machine.ms (machine.leave newMeter inner).ms := by
  intro store
  have hstore : (newCacheKVStore (machine.ms store)).SameBase (inner.ms store) := h store
  change (machine.ms store).SameBase (inner.ms store).drop
  cases hinner : inner.ms store with
  | bottom content =>
    rw [hinner] at hstore
    cases hstore.depth
  | cacheKVStore cache parent =>
    rw [hinner] at hstore
    exact ⟨hstore.base, Nat.succ.inj hstore.depth⟩

theorem runOnCache_sameBases (mode : RunTxMode) (ctx : Context) (newMeter : Option GasMeter)
    (msgs : List Msg) (hcached : ∀ store, 0 < (machine.ms store).depth) :
    SameBases machine.ms (runOnCache app mode ctx newMeter msgs machine).2.ms := by
  have hsame := runMsgs_sameBases app ctx msgs.length 0 msgs {} (machine.cacheMultiStore newMeter)
    (fun store => Nat.succ_pos _)
  rw [runOnCache]
  split
  · rename_i value inner hrun
    rw [hrun] at hsame
    exact leave_sameBases hsame
  · rename_i result inner hrun
    rw [hrun] at hsame
    exact leave_sameBases hsame
  · rename_i progress inner hrun
    rw [hrun] at hsame
    apply leave_sameBases
    split_ifs
    · intro store
      have hdepth : 1 < (inner.ms store).depth := by
        rw [(hsame store).depth]
        exact Nat.succ_lt_succ (hcached store)
      exact (hsame store).trans (Layers.write_sameBase hdepth)
    · exact hsame

theorem runInContext_sameBases (mode : RunTxMode) (ctx : Context) (tx : Tx) (msgs : List Msg)
    (hcached : ∀ store, 0 < (machine.ms store).depth) :
    SameBases machine.ms (runInContext app mode ctx tx msgs machine).2.ms := by
  rw [runInContext]
  split
  · exact runOnCache_sameBases app mode ctx none msgs hcached
  · rename_i anteHandler _
    have hsame := run_sameBases app.db (anteHandler ctx tx) hcached
    split
    · rename_i value machine' hrun
      rw [hrun] at hsame
      exact hsame
    · rename_i outcome machine' hrun
      rw [hrun] at hsame
      split_ifs
      · exact hsame
      · split
        · exact hsame.trans (runOnCache_sameBases app mode ctx none msgs (hsame.cached hcached))
        · exact hsame.trans (runOnCache_sameBases app mode _ _ msgs (hsame.cached hcached))

omit [DecidableEq Key] in
theorem after_eq_self {st : State Key} {cms : CommitMultiStore Key}
    (h : SameBases (st.machine cms).ms machine.ms) : cms.after machine = cms := by
  have hstores : (fun store => { cms.stores store with content := (machine.ms store).base }) =
      cms.stores := by
    funext store
    rw [(h store).base]
    rfl
  rw [CommitMultiStore.after, hstores]

theorem runTxOn_cms (mode : RunTxMode) (txBytes : Option Bytes) (tx : Tx)
    (signedValidators : List SigningValidator) (cms : CommitMultiStore Key)
    (state : Option (State Key)) :
    (runTxOn app mode txBytes tx signedValidators cms state).2.1 = cms := by
  rw [runTxOn]
  split
  · rfl
  · split
    · rfl
    · rename_i st
      exact after_eq_self (runInContext_sameBases app mode _ tx _ fun store => Nat.succ_pos _)

/-! ## The part of the state that consensus calls use -/

/-- What is left of the state without the check state. -/
structure ConsensusPart (Key : Type) where
  cms : CommitMultiStore Key
  deliverState : Option (State Key)
  signedValidators : List SigningValidator

/-- The part of the state that consensus calls use. -/
def BaseApp.consensusPart (a : BaseApp Key) : ConsensusPart Key :=
  ⟨a.cms, a.deliverState, a.signedValidators⟩

/-- The calls made by the consensus engine. -/
def Call.isConsensus : Call Tx → Bool
  | .initChain _ => true
  | .beginBlock _ => true
  | .deliverTx _ => true
  | .endBlock _ => true
  | .commit => true
  | .checkTx _ => false
  | .simulate _ => false
  | .query _ => false

theorem runTx_consensusPart (mode : RunTxMode) (hmode : mode ≠ .deliver) (txBytes : Option Bytes)
    (tx : Tx) (a : BaseApp Key) :
    (runTx app mode txBytes tx a).2.consensusPart = a.consensusPart := by
  have hcms := runTxOn_cms app mode txBytes tx a.signedValidators a.cms a.checkState
  rw [runTx, if_neg hmode]
  simp only [BaseApp.consensusPart, hcms]

theorem checkTx_consensusPart (txBytes : Bytes) (a : BaseApp Key) :
    (checkTx app txBytes a).2.consensusPart = a.consensusPart := by
  rw [checkTx]
  split
  · rfl
  · exact runTx_consensusPart app .check (by decide) _ _ a

theorem query_consensusPart (req : RequestQuery) (a : BaseApp Key) :
    (query app req a).2.consensusPart = a.consensusPart := by
  rw [query]
  simp only
  split
  · split
    · rfl
    · exact runTx_consensusPart app .simulate (by decide) _ _ a
  all_goals rfl

theorem step_quiet (a : BaseApp Key) (h : call.isConsensus = false) :
    ∃ response a', step app a call = .ok (response, a') ∧ a'.consensusPart = a.consensusPart := by
  cases call with
  | checkTx txBytes => exact ⟨_, _, rfl, checkTx_consensusPart app txBytes a⟩
  | simulate tx =>
    have hpart := runTx_consensusPart app .simulate (by decide) none tx a
    exact ⟨_, _, rfl, hpart⟩
  | query req => exact ⟨_, _, rfl, query_consensusPart app req a⟩
  | initChain req => cases h
  | beginBlock req => cases h
  | deliverTx txBytes => cases h
  | endBlock height => cases h
  | commit => cases h

omit [DecidableEq Key] in
theorem exists_checkState {a b : BaseApp Key} (h : a.consensusPart = b.consensusPart) :
    ∃ checkState, b = { a with checkState } := by
  obtain ⟨cms, checkState, deliverState, signedValidators⟩ := b
  cases h
  exact ⟨checkState, rfl⟩

theorem runOnDeliverState_checkState {α : Type} (prog : Context → Prog Key α) (st : State Key)
    (a : BaseApp Key) (checkState : Option (State Key)) :
    runOnDeliverState app prog st { a with checkState } =
      (runOnDeliverState app prog st a).map fun result =>
        (result.1, { result.2 with checkState }) := by
  rw [runOnDeliverState, runOnDeliverState]
  simp only
  split <;> rfl

/-- The calls that begin with a new check state. -/
def Call.resetsCheckState : Call Tx → Bool
  | .initChain _ => true
  | .commit => true
  | _ => false

/-- A call of the consensus engine sets a new check state or passes it on. -/
theorem step_setCheckState (hcall : call.isConsensus = true) (a : BaseApp Key)
    (checkState : Option (State Key)) :
    step app { a with checkState } call = (step app a call).map fun result =>
      (result.1, if call.resetsCheckState then result.2 else { result.2 with checkState }) := by
  cases call with
  | initChain req =>
    change step app a (.initChain req) = (step app a (.initChain req)).map _
    cases step app a (.initChain req) with
    | error value => rfl
    | ok result => rfl
  | beginBlock req =>
    rw [step, step, beginBlock, beginBlock]
    cases app.beginBlocker with
    | none => rfl
    | some beginBlocker =>
      have hrun := runOnDeliverState_checkState app (beginBlocker · req)
        (beginState req.header a.deliverState)
        { a with deliverState := some (beginState req.header a.deliverState) } checkState
      simp only at hrun ⊢
      rw [hrun]
      cases runOnDeliverState app (beginBlocker · req) (beginState req.header a.deliverState)
          { a with deliverState := some (beginState req.header a.deliverState) } with
      | error value => rfl
      | ok result => rfl
  | deliverTx txBytes =>
    rw [step, step, deliverTx, deliverTx]
    cases app.txDecoder txBytes with
    | error err => rfl
    | ok tx => rfl
  | endBlock height =>
    rw [step, step, endBlock, endBlock]
    cases app.endBlocker with
    | none => rfl
    | some endBlocker =>
      obtain ⟨cms, ownState, deliverState, signedValidators⟩ := a
      cases deliverState with
      | none => rfl
      | some st =>
        have hrun := runOnDeliverState_checkState app (endBlocker · height) st
          ⟨cms, ownState, some st, signedValidators⟩ checkState
        simp only at hrun ⊢
        rw [hrun]
        cases runOnDeliverState app (endBlocker · height) st
            ⟨cms, ownState, some st, signedValidators⟩ with
        | error value => rfl
        | ok result => rfl
  | commit =>
    obtain ⟨cms, _, deliverState, signedValidators⟩ := a
    cases deliverState with
    | none => rfl
    | some st => rfl
  | checkTx txBytes => cases hcall
  | simulate tx => cases hcall
  | query req => cases hcall

theorem step_consistent {a b : BaseApp Key} (hcall : call.isConsensus = true)
    (h : a.consensusPart = b.consensusPart) :
    (step app a call).map (Prod.map id BaseApp.consensusPart) =
      (step app b call).map (Prod.map id BaseApp.consensusPart) := by
  obtain ⟨checkState, rfl⟩ := exists_checkState h
  rw [step_setCheckState app hcall a checkState]
  cases step app a call with
  | error value => rfl
  | ok result =>
    change Except.ok (result.1, result.2.consensusPart) = Except.ok (result.1, _)
    split_ifs
    · rfl
    · rfl

/-- Whatever `CheckTx`, `Simulate` and `Query` calls a run contains, without them it shows the same
to the consensus engine: every response, of `Commit` the app hash too, the committed stores after
every call, and whether the process ends. -/
theorem checks_do_not_influence_consensus (a : BaseApp Key) (calls : List (Call Tx)) :
    observe (step app) Call.isConsensus BaseApp.consensusPart a calls =
      observe (step app) Call.isConsensus BaseApp.consensusPart a
        (calls.filter Call.isConsensus) := by
  have hunwinding : Unwinding (step app) Call.isConsensus BaseApp.consensusPart :=
    ⟨fun a _ h => step_quiet app a h, fun hcall h => step_consistent app hcall h⟩
  exact hunwinding.observe_filter rfl calls

end Tepleton.Baseapp
