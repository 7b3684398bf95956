import Tepleton.Baseapp.Isolation

/-!
# Transactions are atomic

The messages of a transaction work on a cache over the state that the ante handler has left.  What
they do to the stores below this cache is nothing, so dropping it after a failure brings back what
the ante handler left, and writing it after success hands on exactly what the messages have made.

States are compared by the contents of their stores.  A state is coherent if every cached entry fits
the store below; new states are, and everything a program does keeps it so.
-/

namespace Tepleton.Baseapp

open Lib Store

variable {Key Tx Msg α : Type}

/-! ## Programs on coherent stacks -/

/-- What the stores of a machine hold. -/
def Machine.contents (machine : Machine Key) : Key → KVStore Bytes Bytes :=
  fun store => (machine.ms store).content

/-- Every stack of caches is coherent. -/
def Machine.Coherent (machine : Machine Key) : Prop := ∀ store, (machine.ms store).Coherent

/-- The machine has become coherent, and below the innermost caches it holds what it held. -/
structure Machine.Above (machine machine' : Machine Key) : Prop where
  coherent : machine'.Coherent
  underneath (store : Key) : (machine'.ms store).underneath = (machine.ms store).underneath

variable {machine : Machine Key} {tx : Tx} {st : State Key} {a : BaseApp Key}

theorem Machine.Coherent.above (h : machine.Coherent) : machine.Above machine :=
  ⟨h, fun _ => rfl⟩

theorem Machine.Above.trans {machine' machine'' : Machine Key} (h : machine.Above machine')
    (h' : machine'.Above machine'') : machine.Above machine'' :=
  ⟨h'.coherent, fun store => (h'.underneath store).trans (h.underneath store)⟩

variable [DecidableEq Key]

theorem above_update (h : machine.Coherent) {store : Key} {l : Layers} (hl : l.Coherent)
    (hunder : l.underneath = (machine.ms store).underneath) :
    machine.Above (machine.update store l) := by
  have hms : ∀ other, (machine.update store l).ms other =
      if other = store then l else machine.ms other := by
    intro other
    exact Function.update_apply machine.ms store l other
  constructor
  · intro other
    rw [hms]
    split_ifs
    · exact hl
    · exact h other
  · intro other
    rw [hms]
    split_ifs with heq
    · rw [heq, hunder]
    · rfl

/-- A program keeps a machine coherent and reaches only the innermost caches. -/
theorem run_above (db : Db) (prog : Prog Key α) (h : machine.Coherent) :
    machine.Above (prog.run db machine).2 := by
  induction prog generalizing machine with
  | done value => exact h.above
  | panic value => exact h.above
  | get store key cont ih | has store key cont ih =>
    have hview := (Layers.get_spec (h store) key).2
    have hget := above_update h hview.coherent hview.underneath
    exact hget.trans (ih _ hget.coherent)
  | set store key value cont ih =>
    have hset : machine.Above (machine.update store ((machine.ms store).put key (some value))) :=
      above_update h ((h store).put (some value)) (Layers.underneath_put (some value))
    exact hset.trans (ih hset.coherent)
  | delete store key cont ih =>
    have hdelete : machine.Above (machine.update store ((machine.ms store).put key none)) :=
      above_update h ((h store).put none) (Layers.underneath_put none)
    exact hdelete.trans (ih hdelete.coherent)
  | iterator store start stop ascending cont ih => exact ih _ h
  | consumeGas amount descriptor cont ih =>
    rw [Prog.run]
    split
    · exact ⟨h, fun _ => rfl⟩
    · rename_i gasMeter _
      have habove := @ih ⟨machine.ms, gasMeter⟩ h
      exact ⟨habove.coherent, habove.underneath⟩
  | gasConsumed cont ih => exact ih _ h

/-! ## The messages of a transaction -/

variable (app : Application Key Tx Msg)

/-- Messages are applied one after the other.  There is no result if one of them has no route,
panics, or returns a result that is not OK. -/
def applyMsgs (ctx : Context) : List Msg → Machine Key → Option (Machine Key)
  | [], machine => some machine
  | msg :: msgs, machine =>
    match app.route (app.msgType msg) with
    | none => none
    | some handler =>
      match (handler ctx msg).run app.db machine with
      | (.error _, _) => none
      | (.ok result, machine) => if result.isOK then applyMsgs ctx msgs machine else none

theorem runMsgs_above (ctx : Context) (total i : ℕ) (msgs : List Msg) (progress : Progress)
    (h : machine.Coherent) : machine.Above (runMsgs app ctx total i msgs progress machine).2 := by
  induction msgs generalizing i progress machine with
  | nil => exact h.above
  | cons msg msgs ih =>
    rw [runMsgs]
    cases app.route (app.msgType msg) with
    | none => exact h.above
    | some handler =>
      have habove := run_above app.db (handler ctx msg) h
      simp only
      split
      · rename_i value machine' hrun
        rw [hrun] at habove
        exact habove
      · rename_i result machine' hrun
        rw [hrun] at habove
        split_ifs
        · exact habove.trans (ih _ _ habove.coherent)
        · exact habove

theorem runMsgs_applyMsgs (ctx : Context) (total i : ℕ) (msgs : List Msg) (progress : Progress)
    (machine : Machine Key) (hok : progress.result.isOK = true) :
    match runMsgs app ctx total i msgs progress machine with
    | (.ok (.inr progress'), machine') =>
      applyMsgs app ctx msgs machine = some machine' ∧ progress'.result.isOK = true
    | _ => applyMsgs app ctx msgs machine = none := by
  induction msgs generalizing i progress machine with
  | nil => exact ⟨rfl, hok⟩
  | cons msg msgs ih =>
    rw [runMsgs, applyMsgs]
    cases app.route (app.msgType msg) with
    | none => rfl
    | some handler =>
      simp only
      cases hrun : (handler ctx msg).run app.db machine with
      | mk outcome machine' =>
        cases outcome with
        | error value => rfl
        | ok result =>
          by_cases hresult : result.isOK = true
          · simp only [hresult, if_true]
            exact ih (i + 1) _ machine' hresult
          · simp only [hresult]
            rfl

/-! ## Writing or dropping the cache -/

section Cache

variable {machine inner : Machine Key} {newMeter : Option GasMeter}

omit [DecidableEq Key] in
theorem cacheMultiStore_coherent (h : machine.Coherent) :
    (machine.cacheMultiStore newMeter).Coherent :=
  fun store => (h store).newCacheKVStore

omit [DecidableEq Key] in
theorem leave_contents (h : (machine.cacheMultiStore newMeter).Above inner) :
    (machine.leave newMeter inner).Coherent ∧
      (machine.leave newMeter inner).contents = machine.contents := by
  have hstore : ∀ store, (inner.ms store).drop.Coherent ∧
      (inner.ms store).drop.content = (machine.ms store).content := by
    intro store
    have hcoherent := h.coherent store
    have hunder : (inner.ms store).underneath =
        (machine.ms store).content :: (machine.ms store).underneath := h.underneath store
    cases hinner : inner.ms store with
    | bottom content =>
      rw [hinner] at hunder
      cases hunder
    | cacheKVStore cache parent =>
      rw [hinner] at hcoherent hunder
      exact ⟨hcoherent.2, (List.cons.inj hunder).1⟩
  exact ⟨fun store => (hstore store).1, funext fun store => (hstore store).2⟩

omit [DecidableEq Key] in
theorem leave_write_contents (h : (machine.cacheMultiStore newMeter).Above inner) :
    (machine.leave newMeter inner.write).Coherent ∧
      (machine.leave newMeter inner.write).contents = inner.contents := by
  have hstore : ∀ store, (inner.ms store).write.drop.Coherent ∧
      (inner.ms store).write.drop.content = (inner.ms store).content := by
    intro store
    have hcoherent := h.coherent store
    have hunder : (inner.ms store).underneath =
        (machine.ms store).content :: (machine.ms store).underneath := h.underneath store
    cases hinner : inner.ms store with
    | bottom content =>
      rw [hinner] at hunder
      cases hunder
    | cacheKVStore cache parent =>
      rw [hinner] at hcoherent
      obtain ⟨parent', hwrite, hcontent, -, hparent⟩ := Layers.write_spec hcoherent
      rw [hwrite]
      exact ⟨hparent, hcontent⟩
  exact ⟨fun store => (hstore store).1, funext fun store => (hstore store).2⟩

end Cache

/-- What the messages leave in the stores of the state they are applied to: everything they have made
if they all pass, and nothing otherwise or in a simulation. -/
def messagesLeave (mode : RunTxMode) (ctx : Context) (newMeter : Option GasMeter) (msgs : List Msg)
    (machine : Machine Key) : Key → KVStore Bytes Bytes :=
  match applyMsgs app ctx msgs (machine.cacheMultiStore newMeter) with
  | none => machine.contents
  | some inner => if mode = .simulate then machine.contents else inner.contents

theorem runOnCache_contents (mode : RunTxMode) (ctx : Context) (newMeter : Option GasMeter)
    (msgs : List Msg) (h : machine.Coherent) :
    (runOnCache app mode ctx newMeter msgs machine).2.Coherent ∧
      (runOnCache app mode ctx newMeter msgs machine).2.contents =
        messagesLeave app mode ctx newMeter msgs machine := by
  have hcached : (machine.cacheMultiStore newMeter).Coherent := cacheMultiStore_coherent h
  have habove := runMsgs_above app ctx msgs.length 0 msgs {} hcached
  have happly := runMsgs_applyMsgs app ctx msgs.length 0 msgs {} (machine.cacheMultiStore newMeter) rfl
  rw [runOnCache, messagesLeave]
  split
  · rename_i value inner hrun
    rw [hrun] at habove happly
    rw [happly]
    exact leave_contents habove
  · rename_i result inner hrun
    rw [hrun] at habove happly
    rw [happly]
    exact leave_contents habove
  · rename_i progress inner hrun
    rw [hrun] at habove happly
    obtain ⟨happly, hok⟩ := happly
    rw [happly]
    by_cases hmode : mode = .simulate
    · simp only [hmode, ne_eq, not_true_eq_false, false_and, if_false, if_true]
      exact leave_contents habove
    · simp only [hmode, ne_eq, not_false_eq_true, hok, and_self, if_true, if_false]
      exact leave_write_contents habove

/-! ## The whole transaction -/

/-- The ante handler alone: the context and gas meter it lets the messages run with, if it neither
aborts nor panics, and the machine it leaves.  Without an ante handler nothing happens. -/
def runAnte (ctx : Context) (tx : Tx) (machine : Machine Key) :
    Option (Context × Option GasMeter) × Machine Key :=
  match app.anteHandler with
  | none => (some (ctx, none), machine)
  | some anteHandler =>
    match (anteHandler ctx tx).run app.db machine with
    | (.error _, machine) => (none, machine)
    | (.ok outcome, machine) =>
      if outcome.abort then (none, machine) else (some (outcome.newCtx.getD (ctx, none)), machine)

/-- What a transaction leaves, given the context it runs in. -/
def transactionLeaves (mode : RunTxMode) (ctx : Context) (tx : Tx) (machine : Machine Key) :
    Key → KVStore Bytes Bytes :=
  match runAnte app ctx tx machine with
  | (none, anteMachine) => anteMachine.contents
  | (some (newCtx, newMeter), anteMachine) =>
    messagesLeave app mode newCtx newMeter (app.getMsgs tx) anteMachine

theorem runInContext_contents (mode : RunTxMode) (ctx : Context) (tx : Tx) (h : machine.Coherent) :
    (runInContext app mode ctx tx (app.getMsgs tx) machine).2.Coherent ∧
      (runInContext app mode ctx tx (app.getMsgs tx) machine).2.contents =
        transactionLeaves app mode ctx tx machine := by
  rw [runInContext, transactionLeaves, runAnte]
  cases app.anteHandler with
  | none => exact runOnCache_contents app mode ctx none _ h
  | some anteHandler =>
    have habove := run_above app.db (anteHandler ctx tx) h
    simp only
    cases hrun : (anteHandler ctx tx).run app.db machine with
    | mk result anteMachine =>
      rw [hrun] at habove
      have hante := habove.coherent
      cases result with
      | error value => exact ⟨hante, rfl⟩
      | ok outcome =>
        simp only
        split_ifs
        · exact ⟨hante, rfl⟩
        · cases outcome.newCtx with
          | none => exact runOnCache_contents app mode ctx none _ hante
          | some new => exact runOnCache_contents app mode new.1 new.2 _ hante

/-- The transaction has messages, and each of them passes `ValidateBasic`. -/
def Valid (tx : Tx) : Prop :=
  app.getMsgs tx ≠ [] ∧ ∀ msg ∈ app.getMsgs tx, app.validateBasic msg = .ok none

instance (tx : Tx) : Decidable (Valid app tx) := inferInstanceAs (Decidable (_ ∧ _))

omit [DecidableEq Key] in
theorem validateMsgs_eq_ok_none (msgs : List Msg) :
    validateMsgs app msgs = .ok none ↔ ∀ msg ∈ msgs, app.validateBasic msg = .ok none := by
  induction msgs with
  | nil => simp [validateMsgs]
  | cons msg msgs ih =>
    rw [validateMsgs, List.forall_mem_cons, ← ih]
    cases app.validateBasic msg with
    | error value => simp [bind, Except.bind]
    | ok result =>
      cases result with
      | none => simp [bind, Except.bind]
      | some err => simp [bind, Except.bind, pure, Except.pure]

omit [DecidableEq Key] in
theorem basicChecks_of_valid (h : Valid app tx) : basicChecks app tx = .inr (app.getMsgs tx) := by
  have hmsgs := (validateMsgs_eq_ok_none app _).mpr h.2
  simp only [basicChecks, List.isEmpty_iff, h.1, if_false, hmsgs]

omit [DecidableEq Key] in
theorem basicChecks_of_not_valid (h : ¬ Valid app tx) :
    ∃ result, basicChecks app tx = .inl result := by
  rw [basicChecks]
  by_cases hempty : app.getMsgs tx = []
  · simp only [List.isEmpty_iff, hempty, if_true]
    exact ⟨_, rfl⟩
  · simp only [List.isEmpty_iff, hempty, if_false]
    have hmsgs : validateMsgs app (app.getMsgs tx) ≠ .ok none := by
      intro hmsgs
      exact h ⟨hempty, (validateMsgs_eq_ok_none app _).mp hmsgs⟩
    split
    · exact ⟨_, rfl⟩
    · exact ⟨_, rfl⟩
    · exact absurd ‹_› hmsgs

omit [DecidableEq Key] in
theorem machine_after {cms : CommitMultiStore Key} (h : SameBases (st.machine cms).ms machine.ms) :
    ((st.after machine).machine cms).ms = machine.ms := by
  funext store
  have hsame := h store
  cases hms : machine.ms store with
  | bottom content =>
    rw [hms] at hsame
    cases hsame.depth
  | cacheKVStore cache parent =>
    rw [hms] at hsame
    cases parent with
    | bottom content =>
      have hbase : content = (cms.stores store).content := hsame.base
      simp only [State.machine, State.after, hms, Layers.top, hbase]
    | cacheKVStore cache' parent => cases hsame.depth

omit [DecidableEq Key] in
theorem newState_coherent (header : Header) (isCheckTx : Bool) (cms : CommitMultiStore Key) :
    ((newState header isCheckTx).machine cms).Coherent :=
  fun store => Layers.Coherent.newCacheKVStore (l := .bottom (cms.stores store).content) trivial

/-- The state a transaction leaves, if the transaction is valid. -/
theorem runTxOn_of_valid (mode : RunTxMode) (txBytes : Option Bytes) (hvalid : Valid app tx)
    (signedValidators : List SigningValidator) (cms : CommitMultiStore Key)
    (h : (st.machine cms).Coherent) :
    ∃ result st', runTxOn app mode txBytes tx signedValidators cms (some st) =
        (result, cms, some st') ∧ st'.ctx = st.ctx ∧ (st'.machine cms).Coherent ∧
      (st'.machine cms).contents =
        transactionLeaves app mode (txContext mode txBytes signedValidators st.ctx) tx
          (st.machine cms) := by
  simp only [runTxOn, basicChecks_of_valid app hvalid]
  set ctx := txContext mode txBytes signedValidators st.ctx
  have hbases : SameBases (st.machine cms).ms
      (runInContext app mode ctx tx (app.getMsgs tx) (st.machine cms)).2.ms :=
    runInContext_sameBases app mode ctx tx _ fun store => Nat.succ_pos _
  obtain ⟨hnew, hcontents⟩ := runInContext_contents app mode ctx tx h
  generalize runInContext app mode ctx tx (app.getMsgs tx) (st.machine cms) = run at *
  refine ⟨run.1, st.after run.2, ?_, rfl, ?_, ?_⟩
  · rw [after_eq_self hbases]
  · intro store
    rw [machine_after hbases]
    exact hnew store
  · rw [← hcontents]
    funext store
    rw [Machine.contents, machine_after hbases]
    rfl

theorem runTxOn_of_not_valid (mode : RunTxMode) (txBytes : Option Bytes) (hvalid : ¬ Valid app tx)
    (signedValidators : List SigningValidator) (cms : CommitMultiStore Key)
    (state : Option (State Key)) :
    ∃ result, runTxOn app mode txBytes tx signedValidators cms state = (result, cms, state) := by
  obtain ⟨result, hresult⟩ := basicChecks_of_not_valid app hvalid
  exact ⟨result, by simp only [runTxOn, hresult]⟩

/-- `DeliverTx` is atomic.  It changes nothing but the deliver state.  If the transaction cannot be
decoded, has no messages or has one that fails `ValidateBasic`, the stores of the deliver state are
as they were.  If the ante handler aborts or panics, they are as it left them; also if a message has
no route, panics or fails.  Otherwise they are what applying all messages in order makes of that. -/
theorem deliverTx_atomic {a : BaseApp Key} {st : State Key} (hstate : a.deliverState = some st)
    (hcoherent : (st.machine a.cms).Coherent) (txBytes : Bytes) :
    ∃ st', (deliverTx app txBytes a).2 = { a with deliverState := some st' } ∧
      (st'.machine a.cms).Coherent ∧
      (st'.machine a.cms).contents =
        match app.txDecoder txBytes with
        | .error _ => (st.machine a.cms).contents
        | .ok tx =>
          if Valid app tx then
            transactionLeaves app .deliver
              (txContext .deliver (some txBytes) a.signedValidators st.ctx) tx (st.machine a.cms)
          else (st.machine a.cms).contents := by
  have hself : a = { a with deliverState := some st } := by
    rw [← hstate]
  rw [deliverTx]
  cases app.txDecoder txBytes with
  | error err => exact ⟨st, hself, hcoherent, rfl⟩
  | ok tx =>
    simp only [runTx, if_true, hstate]
    by_cases hvalid : Valid app tx
    · obtain ⟨result, st', hrun, -, hnew, hcontents⟩ := runTxOn_of_valid app .deliver (some txBytes)
        hvalid a.signedValidators a.cms hcoherent
      rw [if_pos hvalid, hrun]
      exact ⟨st', rfl, hnew, hcontents⟩
    · obtain ⟨result, hrun⟩ := runTxOn_of_not_valid app .deliver (some txBytes) hvalid
        a.signedValidators a.cms (some st)
      rw [if_neg hvalid, hrun]
      exact ⟨st, rfl, hcoherent, rfl⟩

/-- An application that notes every message under the message itself; the message `0` then runs out
of gas.  The ante handler makes a note of its own. -/
def notes : Application Unit (List Byte) Byte where
  db := ⟨isKeyInDomain, fun content _ _ _ => content.toList⟩
  hash _ := []
  keysByName _ := none
  queryStore _ _ := {}
  txDecoder txBytes := .ok txBytes
  getMsgs tx := tx
  msgType _ := "note"
  validateBasic _ := .ok none
  router := [("note", fun _ msg =>
    .set () [msg] [1] (if msg = 0 then .panic (.outOfGas "note") else .done {}))]
  anteHandler := some fun _ _ => .set () [255] [1] (.done ⟨none, {}, false⟩)
  initChainer := none
  beginBlocker := none
  endBlocker := none
  addrPeerFilter := none
  pubkeyPeerFilter := none
  version := []
  marshalResult _ := []

/-- An application with empty stores in the middle of a block. -/
def inBlock : BaseApp Unit where
  cms := ⟨fun _ => ⟨∅, [], []⟩, ⟨0, []⟩⟩
  checkState := none
  deliverState := some (newState {} false)
  signedValidators := []

/-- Of the messages `1` and `0` nothing is left, because the second one fails; of `1` and `2` both
notes are. -/
theorem deliverTx_atomic_notes :
    (∃ st', (deliverTx notes [1, 0] inBlock).2.deliverState = some st' ∧
      ((st'.machine inBlock.cms).contents ()).toList = [([255], [1])]) ∧
    ∃ st', (deliverTx notes [1, 2] inBlock).2.deliverState = some st' ∧
      ((st'.machine inBlock.cms).contents ()).toList = [([1], [1]), ([2], [1]), ([255], [1])] := by
  have hcoherent : ((newState {} false).machine inBlock.cms).Coherent :=
    newState_coherent {} false inBlock.cms
  constructor
  · obtain ⟨st', hdeliver, -, hcontents⟩ := deliverTx_atomic notes rfl hcoherent [1, 0]
    refine ⟨st', by rw [hdeliver], ?_⟩
    rw [hcontents]
    decide +kernel
  · obtain ⟨st', hdeliver, -, hcontents⟩ := deliverTx_atomic notes rfl hcoherent [1, 2]
    refine ⟨st', by rw [hdeliver], ?_⟩
    rw [hcontents]
    decide +kernel

/-! ## Reachable states are coherent -/

/-- A `BaseApp` whose stores have been loaded. -/
def loaded (cms : CommitMultiStore Key) : BaseApp Key := ⟨cms, none, none, []⟩

/-- The states that calls lead to after loading. -/
inductive Reachable : BaseApp Key → Prop
  | loaded (cms : CommitMultiStore Key) : Reachable (loaded cms)
  | step {a a' : BaseApp Key} {call : Call Tx} {response : Response} :
      Reachable a → step app a call = .ok (response, a') → Reachable a'

/-- The check state and the deliver state are coherent over the committed stores. -/
structure BaseApp.Coherent (a : BaseApp Key) : Prop where
  check (st : State Key) (h : a.checkState = some st) : (st.machine a.cms).Coherent
  deliver (st : State Key) (h : a.deliverState = some st) : (st.machine a.cms).Coherent

theorem runTxOn_coherent (mode : RunTxMode) (txBytes : Option Bytes) (tx : Tx)
    (signedValidators : List SigningValidator) (cms : CommitMultiStore Key)
    {state : Option (State Key)} (h : ∀ st, state = some st → (st.machine cms).Coherent) :
    ∃ result state', runTxOn app mode txBytes tx signedValidators cms state = (result, cms, state') ∧
      ∀ st, state' = some st → (st.machine cms).Coherent := by
  by_cases hvalid : Valid app tx
  · cases state with
    | none =>
      have hchecks := basicChecks_of_valid app hvalid
      exact ⟨recoverResult nilDereference, none, by simp only [runTxOn, hchecks], by simp⟩
    | some st =>
      obtain ⟨result, st', hrun, -, hnew, -⟩ := runTxOn_of_valid app mode txBytes hvalid
        signedValidators cms (h st rfl)
      exact ⟨result, some st', hrun, by simpa using hnew⟩
  · obtain ⟨result, hrun⟩ := runTxOn_of_not_valid app mode txBytes hvalid signedValidators cms state
    exact ⟨result, state, hrun, h⟩

theorem BaseApp.Coherent.runTx (h : a.Coherent) (mode : RunTxMode) (txBytes : Option Bytes)
    (tx : Tx) : (runTx app mode txBytes tx a).2.Coherent := by
  rw [Baseapp.runTx]
  split_ifs
  · obtain ⟨result, state, hrun, hnew⟩ := runTxOn_coherent app mode txBytes tx a.signedValidators
      a.cms h.deliver
    rw [hrun]
    exact ⟨h.check, hnew⟩
  · obtain ⟨result, state, hrun, hnew⟩ := runTxOn_coherent app mode txBytes tx a.signedValidators
      a.cms h.check
    rw [hrun]
    exact ⟨hnew, h.deliver⟩

theorem runOnDeliverState_coherent {prog : Context → Prog Key α} {a' : BaseApp Key} {result : α}
    (hcheck : ∀ st, a.checkState = some st → (st.machine a.cms).Coherent)
    (hst : (st.machine a.cms).Coherent) (h : runOnDeliverState app prog st a = .ok (result, a')) :
    a'.Coherent := by
  rw [runOnDeliverState] at h
  have habove := run_above app.db (prog st.ctx) hst
  have hbases : SameBases (st.machine a.cms).ms ((prog st.ctx).run app.db (st.machine a.cms)).2.ms :=
    run_sameBases app.db (prog st.ctx) fun store => Nat.succ_pos _
  split at h
  · cases h
  · rename_i result' machine hrun
    rw [hrun] at habove hbases
    cases h
    simp only [after_eq_self hbases]
    refine ⟨hcheck, ?_⟩
    intro st' hst' store
    cases hst'
    rw [machine_after hbases]
    exact habove.coherent store

/-- Every call keeps the states coherent. -/
theorem BaseApp.Coherent.step {a' : BaseApp Key} {call : Call Tx} {response : Response}
    (ha : a.Coherent) (h : step app a call = .ok (response, a')) : a'.Coherent := by
  cases call with
  | initChain req =>
    have hcheck : ∀ st, some (newState { chainID := req.chainId } true) = some st →
        (st.machine a.cms).Coherent := by
      rintro _ ⟨⟩
      exact newState_coherent _ _ _
    simp only [Baseapp.step, initChain] at h
    split at h
    · cases h
      refine ⟨hcheck, ?_⟩
      rintro _ ⟨⟩
      exact newState_coherent _ _ _
    · simp only [bind_eq_ok, pure_eq_ok] at h
      obtain ⟨⟨_, a''⟩, hrun, heq⟩ := h
      cases heq
      exact runOnDeliverState_coherent app hcheck (newState_coherent _ _ _) hrun
  | beginBlock req =>
    have hbegin : ((beginState req.header a.deliverState).machine a.cms).Coherent := by
      cases hstate : a.deliverState with
      | none => exact newState_coherent _ _ _
      | some st => exact ha.deliver st hstate
    simp only [Baseapp.step, beginBlock] at h
    split at h
    · cases h
      refine ⟨ha.check, ?_⟩
      rintro _ ⟨⟩
      exact hbegin
    · simp only [bind_eq_ok, pure_eq_ok] at h
      obtain ⟨⟨_, a''⟩, hrun, heq⟩ := h
      cases heq
      have hnew := runOnDeliverState_coherent app
        (a := { a with deliverState := some (beginState req.header a.deliverState) })
        ha.check hbegin hrun
      exact ⟨hnew.check, hnew.deliver⟩
  | deliverTx txBytes =>
    simp only [Baseapp.step, deliverTx] at h
    split at h
    · cases h
      exact ha
    · cases h
      exact ha.runTx app .deliver _ _
  | endBlock height =>
    simp only [Baseapp.step, endBlock] at h
    split at h
    · cases h
      exact ha
    · split at h
      · cases h
      · rename_i st hstate
        simp only [bind_eq_ok, pure_eq_ok] at h
        obtain ⟨⟨_, a''⟩, hrun, heq⟩ := h
        cases heq
        exact runOnDeliverState_coherent app ha.check (ha.deliver st hstate) hrun
  | commit =>
    simp only [Baseapp.step, commit] at h
    split at h
    · cases h
    · cases h
      refine ⟨?_, by simp⟩
      rintro _ ⟨⟩
      exact newState_coherent _ _ _
  | checkTx txBytes =>
    simp only [Baseapp.step, checkTx] at h
    split at h
    · cases h
      exact ha
    · cases h
      exact ha.runTx app .check _ _
  | simulate tx =>
    cases h
    exact ha.runTx app .simulate _ _
  | query req =>
    simp only [Baseapp.step, query] at h
    split at h
    · split at h
      · cases h
        exact ha
      · cases h
        exact ha.runTx app .simulate _ _
    all_goals
      cases h
      exact ha

theorem Reachable.coherent (h : Reachable app a) : a.Coherent := by
  induction h with
  | loaded cms =>
    constructor
    · rintro _ ⟨⟩
    · rintro _ ⟨⟩
  | step _ hstep ih => exact ih.step app hstep

/-- What a state answers when a key of a store is read. -/
def State.read (st : State Key) (cms : CommitMultiStore Key) (store : Key) (key : Bytes) :
    Option Bytes :=
  (((st.machine cms).ms store).get key).1

/-- The application of the examples after a block has noted `1` and `2`. -/
def noted : BaseApp Unit := (deliverTx notes [1, 2] inBlock).2

theorem noted_reachable : Reachable notes noted := by
  have hbegin : step notes (loaded inBlock.cms) (.beginBlock ⟨{}, [], []⟩) = .ok (_, inBlock) := rfl
  have hdeliver : step notes inBlock (.deliverTx [1, 2]) = .ok (_, noted) := rfl
  exact ((Reachable.loaded _).step hbegin).step hdeliver

theorem noted_read : ∃ st, noted.deliverState = some st ∧ st.read noted.cms () [2] = some [1] := by
  have hread : noted.deliverState.map (fun st => st.read noted.cms () [2]) = some (some [1]) := by
    decide +kernel
  exact Option.map_eq_some_iff.mp hread

/-- Caches never go stale: whatever calls were made, the check state and the deliver state answer with
the committed value under their own writes. -/
theorem reads_fresh (h : Reachable app a)
    (hst : a.checkState = some st ∨ a.deliverState = some st) (store : Key) (key : Bytes) :
    st.read a.cms store key =
      ((a.cms.stores store).content.overlay (writes (st.caches store)))[key]? := by
  have hcoherent : (st.machine a.cms).Coherent := by
    rcases hst with hst | hst
    · exact (h.coherent app).check st hst
    · exact (h.coherent app).deliver st hst
  exact (Layers.get_spec (hcoherent store) key).1

theorem reads_fresh_noted : ∃ st, noted.deliverState = some st ∧
    ((noted.cms.stores ()).content.overlay (writes (st.caches ())))[([2] : Bytes)]? = some [1] := by
  obtain ⟨st, hst, hread⟩ := noted_read
  exact ⟨st, hst, (reads_fresh notes noted_reachable (.inr hst) () [2]).symm.trans hread⟩

/-- `Commit` publishes the deliver state: what it answered before is in the committed stores
afterwards, and it is what the new check state answers. -/
theorem commit_publishes {a' : BaseApp Key} {response : Response} (h : Reachable app a)
    (hcommit : step app a .commit = .ok (response, a')) :
    ∃ st st', a.deliverState = some st ∧ a'.checkState = some st' ∧ ∀ store key,
      (a'.cms.stores store).content[key]? = st.read a.cms store key ∧
        st'.read a'.cms store key = st.read a.cms store key := by
  have hcoherent := h.coherent app
  have hnew := (Reachable.step h hcommit).coherent app
  rw [step, commit] at hcommit
  cases hst : a.deliverState with
  | none =>
    rw [hst] at hcommit
    cases hcommit
  | some st =>
    rw [hst] at hcommit
    cases hcommit
    refine ⟨st, _, rfl, rfl, fun store key => ?_⟩
    have hdeliver := hcoherent.deliver st hst store
    -- the cache is written to the store below, which then holds what the cache stood for
    obtain ⟨parent, hwrite, hcontent, hunder, -⟩ := Layers.write_spec hdeliver
    have hread : st.read a.cms store key = parent.content[key]? := by
      rw [State.read, (Layers.get_spec hdeliver key).1]
      exact congrArg (·[key]?) hcontent.symm
    have hbase : ((a.cms.stores store).write (st.caches store)).content = parent.content := by
      rw [CommitStore.write, hwrite]
      cases parent with
      | bottom content => rfl
      | cacheKVStore cache parent => cases hunder
    rw [hread]
    refine ⟨congrArg (·[key]?) hbase, ?_⟩
    rw [State.read, (Layers.get_spec (hnew.check _ rfl store) key).1]
    exact congrArg (·[key]?) (Layers.content_newCacheKVStore.trans hbase)

theorem commit_publishes_noted : ∃ response a', step notes noted .commit = .ok (response, a') ∧
    (a'.cms.stores ()).content[([2] : Bytes)]? = some [1] := by
  obtain ⟨st, hst, hread⟩ := noted_read
  have hcommit : step notes noted .commit = .ok (_, _) := rfl
  obtain ⟨st', _, hst', -, hpublished⟩ := commit_publishes notes noted_reachable hcommit
  obtain rfl := Option.some.inj (hst.symm.trans hst')
  exact ⟨_, _, hcommit, (hpublished () [2]).1.trans hread⟩

end Tepleton.Baseapp
