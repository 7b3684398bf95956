import Tepleton.Baseapp.Program

/-!
# The application: `baseapp/baseapp.go`

A `BaseApp` has one committed multistore and up to two states over it, each a cache for every store:
the check state, which `CheckTx` and `Simulate` work on, and the deliver state of the block being
executed.  Both read the same committed stores, so a state is only its caches, and the stacks a
program runs on are put together from the caches and the committed contents and taken apart again
afterwards.

`runTx` runs in one of three modes.  The ante handler works on the state itself; the messages work on
a cache over it, which is written only after all of them passed and never in a simulation.  A panic
anywhere in `runTx` is recovered.  In the other calls it is not, and the process ends.
-/

namespace Tepleton.Baseapp

open Lib Store

/-! ## Requests, responses and contexts -/

structure Header where
  chainID : String := ""
  height : ℤ := 0
  time : ℤ := 0
  /-- The encoding of the other fields, which only handlers read. -/
  other : Bytes := []
  deriving DecidableEq, Repr

structure SigningValidator where
  validator : Bytes
  signedLastBlock : Bool
  deriving DecidableEq, Repr

structure RequestInitChain where
  chainId : String
  validators : List Bytes
  appStateBytes : Bytes

structure RequestBeginBlock where
  header : Header
  validators : List SigningValidator
  byzantineValidators : List Bytes

structure RequestQuery where
  data : Bytes
  path : String
  height : ℤ
  prove : Bool

structure ResponseQuery where
  code : ℕ := 0
  log : String := ""
  key : Bytes := []
  value : Bytes := []
  proof : Bytes := []
  height : ℤ := 0

structure Result where
  code : ℕ := 0
  data : Bytes := []
  log : String := ""
  gasWanted : ℤ := 0
  gasUsed : ℤ := 0
  feeAmount : ℤ := 0
  feeDenom : String := ""
  tags : List (Bytes × Bytes) := []

def Result.isOK (result : Result) : Bool := result.code == 0

/-- `ToWRSPCode` in the root codespace. -/
def toWRSPCode (code : ℕ) : ℕ := if code = 0 then 0 else 1 <<< 16 ||| code

/-- `Error.Result`.  Of the log only the text of the error is kept. -/
def errorResult (err : SdkError) : Result := { code := toWRSPCode err.code, log := err.msg }

/-- `Error.QueryResult`. -/
def errorQueryResult (err : SdkError) : ResponseQuery :=
  { code := toWRSPCode err.code, log := err.msg }

def errInternal (msg : String) : SdkError := ⟨1, msg⟩
def errUnknownRequest (msg : String) : SdkError := ⟨6, msg⟩
def errOutOfGas (msg : String) : SdkError := ⟨12, msg⟩

/-- `sdk.Context` without its multistore and gas meter, which are the machine's. -/
structure Context where
  blockHeader : Header
  blockHeight : ℤ
  chainID : String
  isCheckTx : Bool
  txBytes : Option Bytes
  signingValidators : List SigningValidator
  /-- What handlers put under keys of their own. -/
  values : List (String × Bytes)

def newContext (header : Header) (isCheckTx : Bool) : Context where
  blockHeader := header
  blockHeight := header.height
  chainID := header.chainID
  isCheckTx := isCheckTx
  txBytes := none
  signingValidators := []
  values := []

/-- What an `AnteHandler` returns.  A new context may come with a new gas meter. -/
structure AnteOutcome where
  newCtx : Option (Context × Option GasMeter)
  result : Result
  abort : Bool

/-! ## Applications and their state -/

/-- A committed store: its content, the writes to it since the last version was saved, and those of
each saved version.  The shape and hash of the tree are determined by all writes in order. -/
structure CommitStore where
  content : KVStore Bytes Bytes
  pending : List (Bytes × Option Bytes)
  versions : List (List (Bytes × Option Bytes))

structure CommitID where
  version : ℤ
  hash : Bytes
  deriving DecidableEq, Repr

/-- `rootMultiStore`. -/
structure CommitMultiStore (Key : Type) where
  stores : Key → CommitStore
  lastCommitID : CommitID

variable {Key Tx Msg : Type}

/-- What an application is made of: the handlers and what the code gets from other libraries. -/
structure Application (Key Tx Msg : Type) where
  db : Db
  /-- `commitInfo.Hash` after every store has saved a version. -/
  hash : (Key → CommitStore) → Bytes
  keysByName : String → Option Key
  /-- `iavlStore.Query`. -/
  queryStore : CommitStore → RequestQuery → ResponseQuery
  txDecoder : Bytes → Except SdkError Tx
  getMsgs : Tx → List Msg
  msgType : Msg → String
  /-- `ValidateBasic`, which may panic. -/
  validateBasic : Msg → Except GoPanic (Option SdkError)
  router : List (String × (Context → Msg → Prog Key Result))
  anteHandler : Option (Context → Tx → Prog Key AnteOutcome)
  initChainer : Option (Context → RequestInitChain → Prog Key Unit)
  beginBlocker : Option (Context → RequestBeginBlock → Prog Key (List (Bytes × Bytes)))
  endBlocker : Option (Context → ℤ → Prog Key (List Bytes × List (Bytes × Bytes)))
  addrPeerFilter : Option (String → ResponseQuery)
  pubkeyPeerFilter : Option (String → ResponseQuery)
  version : Bytes
  marshalResult : Result → Bytes

/-- `state`: a cache for each store, and a context with its gas meter. -/
structure State (Key : Type) where
  caches : Key → KVStore Bytes CValue
  ctx : Context
  gasMeter : GasMeter

/-- The volatile and committed state of a `BaseApp`. -/
structure BaseApp (Key : Type) where
  cms : CommitMultiStore Key
  checkState : Option (State Key)
  deliverState : Option (State Key)
  signedValidators : List SigningValidator

/-- A state over the latest content: `setCheckState` and `setDeliverState`. -/
def newState (header : Header) (isCheckTx : Bool) : State Key where
  caches := fun _ => ∅
  ctx := newContext header isCheckTx
  gasMeter := newInfiniteGasMeter

/-- The stacks a state stands for. -/
def State.machine (st : State Key) (cms : CommitMultiStore Key) : Machine Key where
  ms := fun store => .cacheKVStore (st.caches store) (.bottom (cms.stores store).content)
  gasMeter := st.gasMeter

/-- The caches after a program ran. -/
def State.after (st : State Key) (machine : Machine Key) : State Key :=
  { st with caches := fun store => (machine.ms store).top, gasMeter := machine.gasMeter }

/-- The committed stores after a program ran. -/
def CommitMultiStore.after (cms : CommitMultiStore Key) (machine : Machine Key) :
    CommitMultiStore Key :=
  { cms with stores := fun store => { cms.stores store with content := (machine.ms store).base } }

variable [DecidableEq Key] (app : Application Key Tx Msg)

/-! ## Transactions -/

inductive RunTxMode
  | check
  | simulate
  | deliver
  deriving DecidableEq, Repr

def Application.route (path : String) : Option (Context → Msg → Prog Key Result) :=
  (app.router.find? fun route => route.1 == path).map Prod.snd

/-- The deferred function of `runTx`. -/
def recoverResult : GoPanic → Result
  | .outOfGas descriptor => errorResult (errOutOfGas ("out of gas in location: " ++ descriptor))
  | .other value stack => errorResult (errInternal ("recovered: " ++ value ++ "\nstack:\n" ++ stack))

/-- `nil` is dereferenced. -/
def nilDereference : GoPanic :=
  .other "runtime error: invalid memory address or nil pointer dereference" ""

/-- The messages are validated one after the other. -/
def validateMsgs : List Msg → Except GoPanic (Option SdkError)
  | [] => .ok none
  | msg :: msgs => do
      match ← app.validateBasic msg with
      | some err => return some err
      | none => validateMsgs msgs

/-- The result returned for a failed message: message `i` of `total`, counted from zero. -/
def failedResult (total i : ℕ) (gasUsed : ℤ) (result : Result) : Result :=
  if total = 1 then result
  else
    { result with
      gasUsed
      log :=
        if i = 0 then "Msg 1 failed: " ++ result.log
        else s!"Msg 1-{i} Passed. Msg {i + 1} failed: " ++ result.log }

/-- What the message loop carries along: the combined result, the logs and the last result. -/
structure Progress where
  finalResult : Result := {}
  logs : List String := []
  result : Result := {}

/-- The combined result after message `i`. -/
def Progress.add (progress : Progress) (i : ℕ) (gasConsumed : ℤ) (result : Result) : Progress where
  finalResult :=
    { progress.finalResult with
      gasUsed := int64 (progress.finalResult.gasUsed + gasConsumed)
      gasWanted := int64 (progress.finalResult.gasWanted + result.gasWanted)
      data := progress.finalResult.data ++ result.data
      tags := progress.finalResult.tags ++ result.tags }
  logs := progress.logs ++ [s!"Msg {i + 1}: " ++ progress.finalResult.log]
  result := result

/-- The message loop of `runTx`, at message `i` of `total`.  It panics, returns early with a result,
or passes all messages. -/
def runMsgs (ctx : Context) (total : ℕ) : ℕ → List Msg → Progress → Machine Key →
    Except GoPanic (Result ⊕ Progress) × Machine Key
  | _, [], progress, machine => (.ok (.inr progress), machine)
  | i, msg :: msgs, progress, machine =>
    match app.route (app.msgType msg) with
    | none =>
      let err := errUnknownRequest ("Unrecognized Msg type: " ++ app.msgType msg)
      (.ok (.inl (errorResult err)), machine)
    | some handler =>
      match (handler ctx msg).run app.db machine with
      | (.error value, machine) => (.error value, machine)
      | (.ok result, machine) =>
        let progress := progress.add i machine.gasMeter.consumed result
        if result.isOK then runMsgs ctx total (i + 1) msgs progress machine
        else
          (.ok (.inl (failedResult total i progress.finalResult.gasUsed result)), machine)

/-- A cache over every store, `CacheMultiStore`, and the gas meter of the new context if it has its
own. -/
def Machine.cacheMultiStore (machine : Machine Key) (newMeter : Option GasMeter) : Machine Key where
  ms := fun store => newCacheKVStore (machine.ms store)
  gasMeter := newMeter.getD machine.gasMeter

/-- Every innermost cache is written. -/
def Machine.write (machine : Machine Key) : Machine Key :=
  { machine with ms := fun store => (machine.ms store).write }

/-- What is below the caches that `inner` had on top of `machine`.  A gas meter of the new context
goes with them. -/
def Machine.leave (machine : Machine Key) (newMeter : Option GasMeter) (inner : Machine Key) :
    Machine Key where
  ms := fun store => (inner.ms store).drop
  gasMeter := if newMeter.isSome then machine.gasMeter else inner.gasMeter

/-- `runTx` after the ante handler: the messages run on a cache over the state, and the cache is
written or dropped. -/
def runOnCache (mode : RunTxMode) (ctx : Context) (newMeter : Option GasMeter) (msgs : List Msg)
    (machine : Machine Key) : Result × Machine Key :=
  match runMsgs app ctx msgs.length 0 msgs {} (machine.cacheMultiStore newMeter) with
  | (.error value, inner) => (recoverResult value, machine.leave newMeter inner)
  | (.ok (.inl result), inner) => (result, machine.leave newMeter inner)
  | (.ok (.inr progress), inner) =>
    let result := { progress.finalResult with log := "\n".intercalate progress.logs }
    let inner := if mode ≠ .simulate ∧ progress.result.isOK then inner.write else inner
    (result, machine.leave newMeter inner)

/-- `runTx` once the context of the state is there. -/
def runInContext (mode : RunTxMode) (ctx : Context) (tx : Tx) (msgs : List Msg)
    (machine : Machine Key) : Result × Machine Key :=
  match app.anteHandler with
  | none => runOnCache app mode ctx none msgs machine
  | some anteHandler =>
    match (anteHandler ctx tx).run app.db machine with
    | (.error value, machine) => (recoverResult value, machine)
    | (.ok outcome, machine) =>
      if outcome.abort then (outcome.result, machine)
      else
        match outcome.newCtx with
        | none => runOnCache app mode ctx none msgs machine
        | some (newCtx, newMeter) => runOnCache app mode newCtx newMeter msgs machine

/-- The context `runTx` starts from. -/
def txContext (mode : RunTxMode) (txBytes : Option Bytes) (signedValidators : List SigningValidator)
    (ctx : Context) : Context :=
  match mode with
  | .check => { ctx with txBytes }
  | .simulate => { ctx with txBytes, isCheckTx := false }
  | .deliver => { ctx with txBytes, signingValidators := signedValidators }

/-- The checks of `runTx` that need no state: a result to return at once, or the messages. -/
def basicChecks (tx : Tx) : Result ⊕ List Msg :=
  let msgs := app.getMsgs tx
  if msgs.isEmpty then
    .inl (errorResult (errInternal "Tx.GetMsgs() must return at least one message in list"))
  else
    match validateMsgs app msgs with
    | .error value => .inl (recoverResult value)
    | .ok (some err) => .inl (errorResult err)
    | .ok none => .inr msgs

/-- `runTx` on a state over the committed stores. -/
def runTxOn (mode : RunTxMode) (txBytes : Option Bytes) (tx : Tx)
    (signedValidators : List SigningValidator) (cms : CommitMultiStore Key)
    (state : Option (State Key)) : Result × CommitMultiStore Key × Option (State Key) :=
  match basicChecks app tx with
  | .inl result => (result, cms, state)
  | .inr msgs =>
    match state with
    | none => (recoverResult nilDereference, cms, none)
    | some st =>
      let ctx := txContext mode txBytes signedValidators st.ctx
      let (result, machine) := runInContext app mode ctx tx msgs (st.machine cms)
      (result, cms.after machine, some (st.after machine))

def runTx (mode : RunTxMode) (txBytes : Option Bytes) (tx : Tx) (a : BaseApp Key) :
    Result × BaseApp Key :=
  if mode = .deliver then
    let (result, cms, deliverState) :=
      runTxOn app mode txBytes tx a.signedValidators a.cms a.deliverState
    (result, { a with cms, deliverState })
  else
    let (result, cms, checkState) :=
      runTxOn app mode txBytes tx a.signedValidators a.cms a.checkState
    (result, { a with cms, checkState })

/-! ## Calls -/

/-- A call of the consensus engine, the mempool or a client. -/
inductive Call (Tx : Type)
  | initChain (req : RequestInitChain)
  | beginBlock (req : RequestBeginBlock)
  | deliverTx (txBytes : Bytes)
  | endBlock (height : ℤ)
  | commit
  | checkTx (txBytes : Bytes)
  | simulate (tx : Tx)
  | query (req : RequestQuery)

/-- What a call returns. -/
inductive Response
  | initChain
  | beginBlock (tags : List (Bytes × Bytes))
  | deliverTx (code : ℕ) (data : Bytes) (log : String) (gasWanted gasUsed : ℤ)
      (tags : List (Bytes × Bytes))
  | endBlock (validatorUpdates : List Bytes) (tags : List (Bytes × Bytes))
  | commit (data : Bytes)
  | checkTx (result : Result)
  | simulate (result : Result)
  | query (response : ResponseQuery)

/-- A program runs on the deliver state itself.  A panic is not recovered. -/
def runOnDeliverState {α : Type} (prog : Context → Prog Key α) (st : State Key) (a : BaseApp Key) :
    Except GoPanic (α × BaseApp Key) :=
  match (prog st.ctx).run app.db (st.machine a.cms) with
  | (.error value, _) => .error value
  | (.ok result, machine) =>
    .ok (result, { a with cms := a.cms.after machine, deliverState := some (st.after machine) })

def initChain (req : RequestInitChain) (a : BaseApp Key) :
    Except GoPanic (Response × BaseApp Key) := do
  let header : Header := { chainID := req.chainId }
  let st : State Key := newState header false
  let a := { a with deliverState := some st, checkState := some (newState header true) }
  match app.initChainer with
  | none => return (.initChain, a)
  | some initChainer =>
    let (_, a) ← runOnDeliverState app (initChainer · req) st a
    return (.initChain, a)

/-- The deliver state a block begins with: a new one, or that of `InitChain` with the header set.
The height of the context is set only with a new state. -/
def beginState (header : Header) : Option (State Key) → State Key
  | none => newState header false
  | some st => { st with ctx := { st.ctx with blockHeader := header } }

def beginBlock (req : RequestBeginBlock) (a : BaseApp Key) :
    Except GoPanic (Response × BaseApp Key) := do
  let st := beginState req.header a.deliverState
  let a := { a with deliverState := some st }
  match app.beginBlocker with
  | none => return (.beginBlock [], { a with signedValidators := req.validators })
  | some beginBlocker =>
    let (tags, a) ← runOnDeliverState app (beginBlocker · req) st a
    return (.beginBlock tags, { a with signedValidators := req.validators })

def checkTx (txBytes : Bytes) (a : BaseApp Key) : Response × BaseApp Key :=
  match app.txDecoder txBytes with
  | .error err => (.checkTx (errorResult err), a)
  | .ok tx =>
    let (result, a) := runTx app .check (some txBytes) tx a
    (.checkTx result, a)

/-- The response of `DeliverTx`. -/
def deliverResponse (result : Result) : Response :=
  .deliverTx result.code result.data result.log result.gasWanted result.gasUsed result.tags

def deliverTx (txBytes : Bytes) (a : BaseApp Key) : Response × BaseApp Key :=
  match app.txDecoder txBytes with
  | .error err => (deliverResponse (errorResult err), a)
  | .ok tx =>
    let (result, a) := runTx app .deliver (some txBytes) tx a
    (deliverResponse result, a)

def simulate (tx : Tx) (a : BaseApp Key) : Result × BaseApp Key := runTx app .simulate none tx a

def endBlock (height : ℤ) (a : BaseApp Key) : Except GoPanic (Response × BaseApp Key) :=
  match app.endBlocker with
  | none => .ok (.endBlock [] [], a)
  | some endBlocker =>
    match a.deliverState with
    | none => .error nilDereference
    | some st => do
        let ((updates, tags), a) ← runOnDeliverState app (endBlocker · height) st a
        return (.endBlock updates tags, a)

/-- What `Write` sends to the store below for a dirty entry. -/
def flushed (entry : Bytes × CValue) : Option (Bytes × Option Bytes) :=
  if entry.2.deleted then some (entry.1, none)
  else entry.2.value.map fun value => (entry.1, some value)

/-- A cache is written to a committed store. -/
def CommitStore.write (store : CommitStore) (cache : KVStore Bytes CValue) : CommitStore :=
  { store with
    content := (Layers.cacheKVStore cache (.bottom store.content)).write.base
    pending := store.pending ++ (dirtyEntries cache).filterMap flushed }

/-- `iavlStore.Commit`: a version is saved. -/
def CommitStore.commit (store : CommitStore) : CommitStore :=
  { store with pending := [], versions := store.versions ++ [store.pending] }

/-- `rootMultiStore.Commit`. -/
def commitStores (cms : CommitMultiStore Key) : CommitMultiStore Key :=
  let stores := fun store => (cms.stores store).commit
  { stores, lastCommitID := ⟨int64 (cms.lastCommitID.version + 1), app.hash stores⟩ }

def commit (a : BaseApp Key) : Except GoPanic (Response × BaseApp Key) :=
  match a.deliverState with
  | none => .error nilDereference
  | some st =>
    let written := fun store => (a.cms.stores store).write (st.caches store)
    let cms := commitStores app { a.cms with stores := written }
    .ok (.commit cms.lastCommitID.hash,
      { a with
        cms
        checkState := some (newState st.ctx.blockHeader true)
        deliverState := none })

/-! ## Queries -/

/-- `rootMultiStore.Query`, for a path split at its slashes. -/
def queryMultiStore (cms : CommitMultiStore Key) (path : List String) (req : RequestQuery) :
    ResponseQuery :=
  let storeName := path.headD ""
  match app.keysByName storeName with
  | none => errorQueryResult (errUnknownRequest ("no such store: " ++ storeName))
  | some key =>
    let subpath := if path.tail.isEmpty then "" else "/" ++ "/".intercalate path.tail
    app.queryStore (cms.stores key) { req with path := subpath }

/-- The peer filters of `Query`. -/
def filterPeer (filter : Option (String → ResponseQuery)) (info : String) : ResponseQuery :=
  match filter with
  | none => {}
  | some filter => filter info

def query (req : RequestQuery) (a : BaseApp Key) : ResponseQuery × BaseApp Key :=
  let split := req.path.splitOn "/"
  let path := if split.head? = some "" then split.tail else split
  let unknown := errorQueryResult (errUnknownRequest "unknown query path")
  match path with
  | "app" :: "simulate" :: _ =>
    match app.txDecoder req.data with
    | .error err => ({ value := app.marshalResult (errorResult err) }, a)
    | .ok tx =>
      let (result, a) := simulate app tx a
      ({ value := app.marshalResult result }, a)
  | "app" :: "version" :: _ => ({ value := app.version }, a)
  | "app" :: _ :: _ =>
    let err := errUnknownRequest ("Unknown query: [" ++ " ".intercalate path ++ "]")
    ({ value := app.marshalResult (errorResult err) }, a)
  | "store" :: rest => (queryMultiStore app a.cms rest req, a)
  | "p2p" :: "filter" :: "addr" :: info :: _ => (filterPeer app.addrPeerFilter info, a)
  | "p2p" :: "filter" :: "pubkey" :: info :: _ => (filterPeer app.pubkeyPeerFilter info, a)
  | _ => (unknown, a)

/-- One call.  It is an error if the process ends. -/
def step (a : BaseApp Key) : Call Tx → Except GoPanic (Response × BaseApp Key)
  | .initChain req => initChain app req a
  | .beginBlock req => beginBlock app req a
  | .deliverTx txBytes => .ok (deliverTx app txBytes a)
  | .endBlock height => endBlock app height a
  | .commit => commit app a
  | .checkTx txBytes => .ok (checkTx app txBytes a)
  | .simulate tx =>
    let (result, a) := simulate app tx a
    .ok (.simulate result, a)
  | .query req =>
    let (response, a) := query app req a
    .ok (.query response, a)

end Tepleton.Baseapp
