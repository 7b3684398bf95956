import Tepleton.Store.Commit

/-!
# Durability of the root multistore

What a multistore is for is said by `Image`: every key has a map of its own, and a commit keeps the
maps as they are.  `commits_durable` is that a multistore refines this, restarts included, if the names
of its keys tell the stores apart on disk; nothing in the code makes sure of that, see
`same_name_unloadable`.  What it returns depends on the batches of writes alone (`replicas_agree`).

A crash in the middle of a commit leaves some stores one version ahead.  They still have the version
before, so the multistore loads and the commit can be repeated, unless the commits that were finished
have released an old version: the repeated commit wants to release it again and fails
(`crash_recoverable_iff`).
-/

namespace Tepleton.Store.Multi

open Lib Crypto.Merkle

/-! ## The purpose of a multistore -/

/-- What was written through each key, and how much of it was committed. -/
structure Image where
  current : StoreKey → Bytes → Option Bytes
  committed : StoreKey → Bytes → Option Bytes

/-- A write to a map. -/
def Write.onMap (m : Bytes → Option Bytes) : Write → Bytes → Option Bytes
  | .set k v => Function.update m k (some v)
  | .delete k => Function.update m k none

/-- A commit keeps what was written; a restart loses the rest. -/
def Image.after (image : Image) : Event → Image
  | .write key w =>
    { image with current := Function.update image.current key (w.onMap (image.current key)) }
  | .commit _ => { image with committed := image.current }
  | .restart _ => { image with current := image.committed }

/-- The maps after some events. -/
def imageOf (events : List Event) : Image :=
  events.foldl Image.after ⟨fun _ _ => none, fun _ _ => none⟩

/-- A commit. -/
def Event.isCommit : Event → Bool
  | .commit _ => true
  | _ => false

/-- The writes since the last commit or restart. -/
def pending (events : List Event) : List (StoreKey × Write) :=
  events.foldl (fun writes event =>
    match event with
    | .write key w => writes ++ [(key, w)]
    | .commit _ => []
    | .restart _ => []) []

/-- The writes that each commit has saved, and those since. -/
def batched (events : List Event) : List (List (StoreKey × Write)) × List (StoreKey × Write) :=
  events.foldl (fun done event =>
    match event with
    | .write key w => (done.1, done.2 ++ [(key, w)])
    | .commit _ => (done.1 ++ [done.2], [])
    | .restart _ => (done.1, [])) ([], [])

variable {V T : Type} {pk : Packages V T} {name : StoreKey → Bytes}

theorem Packages.get_apply (pk : Packages V T) (tree : T) (w : Write) :
    pk.get (w.apply pk tree) = w.onMap (pk.get tree) := by
  funext k'
  cases w with
  | set k v =>
    rw [Write.apply, pk.get_set, Write.onMap, Function.update_apply]
    simp only [eq_comm]
  | delete k =>
    rw [Write.apply, pk.get_remove, Write.onMap, Function.update_apply]
    simp only [eq_comm]

/-! ## The refinement -/

section Run

variable {db : ℕ} {params : KVStore StoreKey StoreParams} {mounts : List Mount}
  {stores : KVStore StoreKey (IavlStore T)}

/-- What the last commit has returned. -/
def lastID (commitIDs : List CommitID) : CommitID := commitIDs.getLast?.getD {}

@[simp] theorem lastID_snoc (commitIDs : List CommitID) (id : CommitID) :
    lastID (commitIDs ++ [id]) = id := by
  simp [lastID]

/-- A multistore that knows its last commit. -/
def nodeOf (db : ℕ) (params : KVStore StoreKey StoreParams) (stores : KVStore StoreKey (IavlStore T))
    (disks : Disks V) (commitIDs : List CommitID) : Node V T :=
  ⟨⟨db, lastID commitIDs, params, stores⟩, disks, commitIDs⟩

/-- A multistore after some events: the trees that are saved are on disk, and in memory those with the
writes since. -/
structure Tracks (pk : Packages V T) (name : StoreKey → Bytes) (db : ℕ)
    (params : KVStore StoreKey StoreParams) (events : List Event)
    (stores : KVStore StoreKey (IavlStore T)) (disks : Disks V) (commitIDs : List CommitID)
    (saved : StoreKey → T) : Prop where
  settled : Settled pk name db params disks (lastID commitIDs) saved
  memory : InMemory name db params (lastID commitIDs).version (afterWrites pk (pending events) saved)
    stores
  version : (lastID commitIDs).version = events.countP Event.isCommit
  keys : ∀ kw ∈ pending events, ∃ p, params[kw.1]? = some p
  committed : (imageOf events).committed = fun key => pk.get (saved key)
  current : (imageOf events).current = fun key => pk.get (afterWrites pk (pending events) saved key)

/-- The event is no write through a key that is not mounted. -/
def Event.Reaches (params : KVStore StoreKey StoreParams) : Event → Prop
  | .write key _ => ∃ p, params[key]? = some p
  | .commit _ => True
  | .restart _ => True

@[simp] theorem pending_snoc_write (events : List Event) (key : StoreKey) (w : Write) :
    pending (events ++ [.write key w]) = pending events ++ [(key, w)] := by
  simp [pending]

@[simp] theorem pending_snoc_commit (events : List Event) (ords : Orders) :
    pending (events ++ [.commit ords]) = [] := by
  simp [pending]

@[simp] theorem pending_snoc_restart (events : List Event) (ords : Orders) :
    pending (events ++ [.restart ords]) = [] := by
  simp [pending]

theorem batched_snd (events : List Event) : (batched events).2 = pending events :=
  (List.foldl_hom Prod.snd fun _ event => by cases event <;> rfl).symm

theorem batched_snoc (events : List Event) (event : Event) : (batched (events ++ [event])).1 =
    (batched events).1 ++ if event.isCommit then [pending events] else [] := by
  rw [← batched_snd, batched, List.foldl_append, ← batched]
  cases event <;> simp [Event.isCommit]

/-- What the commits of some batches of writes return, and the trees that they save. -/
def replay (pk : Packages V T) (name : StoreKey → Bytes) (params : KVStore StoreKey StoreParams)
    (batches : List (List (StoreKey × Write))) : List CommitID × (StoreKey → T) :=
  batches.foldl (fun done writes =>
    let version := (lastID done.1).version
    let trees := afterWrites pk writes done.2
    (done.1 ++ [nextID pk name params version trees], nextTrees pk version trees))
    ([], fun _ => pk.empty)

theorem imageOf_snoc (events : List Event) (event : Event) :
    imageOf (events ++ [event]) = (imageOf events).after event := by
  rw [imageOf, List.foldl_append]
  rfl

theorem afterWrites_snoc (writes : List (StoreKey × Write)) (key : StoreKey) (w : Write)
    (trees : StoreKey → T) : afterWrites pk (writes ++ [(key, w)]) trees =
      Function.update (afterWrites pk writes trees) key
        (w.apply pk (afterWrites pk writes trees key)) := by
  simp [afterWrites]

theorem opened_eq_ok (hmount : mounted db mounts = .ok (⟨db, {}, params, ∅⟩ : RootMultiStore T))
    (hmounts : WellMounted name db params) {disks : Disks V} {id : CommitID} {saved : StoreKey → T}
    (h : Saved pk name db params disks id saved) (ords : Orders) :
    ∃ stores, opened pk name db mounts ords disks = .ok ⟨db, id, params, stores⟩ ∧
      InMemory name db params id.version saved stores := by
  obtain ⟨stores, hload, hmemory⟩ := loadLatestVersion_eq_ok hmounts h ords
  refine ⟨stores, ?_, hmemory⟩
  rw [opened, hmount]
  exact hload

variable {events : List Event}

theorem tracks_start (hmemory : InMemory name db params 0 (fun _ => pk.empty) stores) :
    Tracks pk name db params [] stores (fun _ _ => none) [] fun _ => pk.empty :=
  ⟨settled_empty pk name db params, hmemory, rfl, nofun, funext fun _ => funext fun k => (pk.get_empty k).symm,
    funext fun _ => funext fun k => (pk.get_empty k).symm⟩

theorem execute_snoc (ords : Orders) (events : List Event) (event : Event) :
    execute pk name db mounts ords (events ++ [event]) =
      execute pk name db mounts ords events >>= fun node => step pk name mounts node event := by
  simp [execute, List.foldlM_append]

section Loaded

variable (hmount : mounted db mounts = .ok (⟨db, {}, params, ∅⟩ : RootMultiStore T))
  (hmounts : WellMounted name db params)

include hmount hmounts

/-- One event. -/
theorem Tracks.step {stores : KVStore StoreKey (IavlStore T)} {disks : Disks V}
    {commitIDs : List CommitID} {saved : StoreKey → T}
    (h : Tracks pk name db params events stores disks commitIDs saved) {event : Event}
    (hevent : event.Reaches params)
    (hreplay : (commitIDs, saved) = replay pk name params (batched events).1) :
    ∃ stores' disks' commitIDs' saved',
      step pk name mounts (nodeOf db params stores disks commitIDs) event =
        .ok (nodeOf db params stores' disks' commitIDs') ∧
      Tracks pk name db params (events ++ [event]) stores' disks' commitIDs' saved' ∧
      (commitIDs', saved') = replay pk name params (batched (events ++ [event])).1 := by
  cases event with
  | write key w =>
    obtain ⟨stores', hwrite, hmemory'⟩ := writeStore_eq_ok pk h.memory hevent w (lastID commitIDs)
    refine ⟨stores', disks, commitIDs, saved, ?_, ⟨h.settled, ?_, ?_, ?_, ?_, ?_⟩, ?_⟩
    · simp only [Multi.step, nodeOf, hwrite]
      rfl
    · rw [pending_snoc_write, afterWrites_snoc]
      exact hmemory'
    · simp [h.version, Event.isCommit]
    · rw [pending_snoc_write, List.forall_mem_append, List.forall_mem_singleton]
      exact ⟨h.keys, hevent⟩
    · rw [imageOf_snoc]
      exact h.committed
    · rw [imageOf_snoc, Image.after, pending_snoc_write, afterWrites_snoc, h.current]
      funext key'
      by_cases hkey : key' = key
      · subst hkey
        simp only [Function.update_self, pk.get_apply]
      · simp only [Function.update_of_ne hkey]
    · simpa [batched_snoc, Event.isCommit] using hreplay
  | commit ords =>
    obtain ⟨stores', disks', hcommit, hmemory', hsettled'⟩ :=
      h.settled.commit hmounts h.memory ords
    let trees := afterWrites pk (pending events) saved
    refine ⟨stores', disks', commitIDs ++ [nextID pk name params (lastID commitIDs).version trees],
      nextTrees pk (lastID commitIDs).version trees, ?_, ⟨?_, ?_, ?_, ?_, ?_, ?_⟩, ?_⟩
    · simp only [Multi.step, nodeOf, hcommit, lastID_snoc]
      rfl
    · rw [lastID_snoc]
      exact hsettled'
    · rw [lastID_snoc, pending_snoc_commit]
      exact hmemory'
    · rw [lastID_snoc, List.countP_append, ← h.version]
      rfl
    · simp
    · rw [imageOf_snoc, Image.after]
      simp only [h.current]
      exact funext fun key => (pk.get_persist _ _).symm
    · rw [imageOf_snoc, Image.after]
      simp only [pending_snoc_commit, h.current]
      exact funext fun key => (pk.get_persist _ _).symm
    · rw [batched_snoc, replay, List.foldl_append, ← replay, ← hreplay]
      rfl
  | restart ords =>
    obtain ⟨stores', hopened, hmemory'⟩ := opened_eq_ok hmount hmounts h.settled.toSaved ords
    refine ⟨stores', disks, commitIDs, saved, ?_, ⟨h.settled, ?_, ?_, ?_, ?_, ?_⟩, ?_⟩
    · simp only [Multi.step, nodeOf, hopened]
      rfl
    · rw [pending_snoc_restart]
      exact hmemory'
    · simp [h.version, Event.isCommit]
    · simp
    · rw [imageOf_snoc]
      exact h.committed
    · rw [imageOf_snoc, pending_snoc_restart]
      exact h.committed
    · simpa [batched_snoc, Event.isCommit] using hreplay

theorem execute_replay (ords : Orders) (hevents : ∀ event ∈ events, event.Reaches params) :
    ∃ stores disks commitIDs saved,
      execute pk name db mounts ords events = .ok (nodeOf db params stores disks commitIDs) ∧
        Tracks pk name db params events stores disks commitIDs saved ∧
        (commitIDs, saved) = replay pk name params (batched events).1 := by
  induction events using List.reverseRecOn with
  | nil =>
    obtain ⟨stores, hopened, hmemory⟩ :=
      opened_eq_ok hmount hmounts (settled_empty pk name db params).toSaved ords
    refine ⟨stores, _, [], _, ?_, tracks_start hmemory, rfl⟩
    rw [execute, hopened]
    rfl
  | append_singleton events event ih =>
    rw [List.forall_mem_append, List.forall_mem_singleton] at hevents
    obtain ⟨stores, disks, commitIDs, saved, hexecute, htracks, hreplay⟩ := ih hevents.1
    obtain ⟨stores', disks', commitIDs', saved', hstep, htracks'⟩ :=
      htracks.step hmount hmounts hevents.2 hreplay
    refine ⟨stores', disks', commitIDs', saved', ?_, htracks'⟩
    rw [execute_snoc, hexecute]
    exact hstep

theorem execute_tracks (ords : Orders) (hevents : ∀ event ∈ events, event.Reaches params) :
    ∃ stores disks commitIDs saved,
      execute pk name db mounts ords events = .ok (nodeOf db params stores disks commitIDs) ∧
        Tracks pk name db params events stores disks commitIDs saved := by
  obtain ⟨stores, disks, commitIDs, saved, hexecute, htracks, -⟩ :=
    execute_replay hmount hmounts ords hevents
  exact ⟨stores, disks, commitIDs, saved, hexecute, htracks⟩

theorem reaches_of_execute {ords : Orders} {node : Node V T}
    (h : execute pk name db mounts ords events = .ok node) :
    ∀ event ∈ events, event.Reaches params := by
  induction events using List.reverseRecOn generalizing node with
  | nil => exact nofun
  | append_singleton events event ih =>
    rw [execute_snoc, bind_eq_ok] at h
    obtain ⟨before, hbefore, hstep⟩ := h
    have hevents := ih hbefore
    obtain ⟨stores, disks, commitIDs, saved, hexecute, htracks⟩ :=
      execute_tracks hmount hmounts ords hevents
    rw [hexecute] at hbefore
    cases hbefore
    rw [List.forall_mem_append, List.forall_mem_singleton]
    refine ⟨hevents, ?_⟩
    cases event with
    | commit ords => trivial
    | restart ords => trivial
    | write key w =>
      simp only [step, nodeOf, writeStore, htracks.memory key] at hstep
      cases hp : params[key]? with
      | none =>
        rw [hp] at hstep
        cases hstep
      | some p => exact ⟨p, hp⟩

end Loaded

end Run

/-! ## A concrete tree -/

namespace Example

/-- What is stored: trees as they are, and the records of the multistore. -/
inductive Record
  | tree (entries : KVStore Bytes Bytes)
  | latest (version : ℕ)
  | info (cInfo : CommitInfo)

/-- The text `r/<version>`. -/
def versionKey (version : ℕ) : Bytes := 114 :: 47 :: decimal version

theorem versionKey_inj {version version' : ℕ} : versionKey version = versionKey version' ↔
    version = version' := by
  refine ⟨fun h => ?_, congrArg versionKey⟩
  have htail : decimal version = decimal version' := (List.cons.inj (List.cons.inj h).2).2
  rw [← parseDecimal_decimal version, htail, parseDecimal_decimal]

/-- The tree under a version. -/
def stored (db : Database Byte Record) (version : ℕ) : Option (KVStore Bytes Bytes) :=
  match db (versionKey version) with
  | some (.tree entries) => some entries
  | _ => none

theorem stored_put (db : Database Byte Record) (version : ℕ) (tree : KVStore Bytes Bytes) :
    stored (put db (versionKey version) (.tree tree)) =
      Function.update (stored db) version (some tree) := by
  funext version'
  by_cases h : version' = version
  · subst h
    rw [Function.update_self, stored, put, Function.update_self]
  · rw [Function.update_of_ne h, stored, put, Function.update_of_ne (mt versionKey_inj.mp h), stored]

theorem stored_delete (db : Database Byte Record) (version : ℕ) :
    stored (Function.update db (versionKey version) none) =
      Function.update (stored db) version none := by
  funext version'
  by_cases h : version' = version
  · subst h
    rw [Function.update_self, stored, Function.update_self]
  · rw [Function.update_of_ne h, stored, Function.update_of_ne (mt versionKey_inj.mp h), stored]

/-- Trees are maps, and a version is one record. -/
def packages : Packages Record (KVStore Bytes Bytes) where
  empty := ∅
  get tree k := tree[k]?
  set tree k v := tree.insert k v
  remove tree k := tree.erase k
  hash tree := some (tree.toList.flatMap fun entry => entry.1 ++ entry.2)
  persist _ tree := tree
  stored := stored
  saveVersion db version tree :=
    match stored db version with
    | some tree' =>
      if tree'.toList = tree.toList then .ok db
      else .error "version was already saved to different hash"
    | none => .ok (put db (versionKey version) (.tree tree))
  deleteVersion db version :=
    match stored db version with
    | some _ => .ok (Function.update db (versionKey version) none)
    | none => .error "version does not exist"
  get_empty := KVStore.getElem?_empty
  get_set tree k v k' := KVStore.getElem?_insert tree k k' v
  get_remove tree k k' := KVStore.getElem?_erase tree k k'
  get_persist _ _ := rfl
  stored_none _ := rfl
  saveVersion_eq_ok := by
    rintro db version tree (hnone | hsome)
    · exact ⟨_, by simp only [hnone], stored_put db version tree⟩
    · refine ⟨db, by simp only [hsome, if_true], ?_⟩
      rw [← hsome, Function.update_eq_self]
  deleteVersion_eq_ok := by
    intro db version latest hsome _ _
    obtain ⟨tree, htree⟩ := Option.ne_none_iff_exists'.mp hsome
    exact ⟨_, by simp only [htree], stored_delete db version⟩
  deleteVersion_missing := by
    intro db version hnone
    simp only [hnone]
    exact ⟨_, rfl⟩
  marshalInt64 := .latest
  unmarshalInt64
    | .latest version => .ok version
    | _ => .error "not an int64"
  unmarshalInt64_marshal _ := rfl
  marshalCommitInfo := .info
  unmarshalCommitInfo
    | .info cInfo => .ok cInfo
    | _ => .error "not a commitInfo"
  unmarshalCommitInfo_marshal _ := rfl
  coreHash id := decimal id.version ++ id.hash.bytes
  hashing := ⟨fun bz => bz, fun bz => decimal bz.length ++ bz⟩

/-- All maps are gone through in ascending order. -/
def ascending : Orders := fun _ => .ascending

/-- An IAVL store on the common database. -/
def common : StoreParams := ⟨.iavl, none⟩

/-- Two stores. -/
def mounts : List Mount := [⟨0, common⟩, ⟨1, common⟩]

/-- The names `acc` and `main`. -/
def names (key : StoreKey) : Bytes := if key = 0 then [97, 99, 99] else [109, 97, 105, 110]

end Example

/-! ## Restarts -/

/-- A multistore whose stores are told apart by their names can be restarted at any time.  It finds
what the last commit has returned, and in each store what was written through its own key until
then. -/
theorem commits_durable (pk : Packages V T) (name : StoreKey → Bytes) {db : ℕ} {mounts : List Mount}
    {fresh : RootMultiStore T} (hmount : mounted db mounts = .ok fresh)
    (hiavl : ∀ mount ∈ mounts, mount.params.typ = .iavl) (hseparate : Separate name db mounts)
    (ords : Orders) {events : List Event}
    (hevents : ∀ event ∈ events, event.Reaches fresh.storesParams) :
    ∃ node, execute pk name db mounts ords events = .ok node ∧ ∀ ords', ∃ rs,
      opened pk name db mounts ords' node.disks = .ok rs ∧
      rs.lastCommitID = lastID node.commitIDs ∧
      ∀ mount ∈ mounts, ∃ st, rs.stores[mount.key]? = some st ∧
        pk.get st.tree = (imageOf events).committed mount.key := by
  obtain ⟨params, rfl, hparams⟩ := mounted_eq_ok hmount
  have hmounts := hseparate.wellMounted hiavl hparams
  obtain ⟨stores, disks, commitIDs, saved, hexecute, htracks⟩ :=
    execute_tracks hmount hmounts ords hevents
  refine ⟨_, hexecute, fun ords' => ?_⟩
  obtain ⟨stores', hopened, hmemory⟩ := opened_eq_ok hmount hmounts htracks.settled.toSaved ords'
  refine ⟨_, hopened, rfl, fun mount hmem => ?_⟩
  have hp := (hparams mount.key mount.params).mpr hmem
  refine ⟨_, by rw [hmemory mount.key, hp]; rfl, ?_⟩
  rw [htracks.committed]
  rfl

/-- Nodes that have committed the same batches of writes have returned the same commit ids, in whatever
orders they go through their maps, and whether or not they were restarted in between. -/
theorem replicas_agree (pk : Packages V T) (name : StoreKey → Bytes) {db : ℕ} {mounts : List Mount}
    (hiavl : ∀ mount ∈ mounts, mount.params.typ = .iavl) (hseparate : Separate name db mounts)
    {ords ords' : Orders} {events events' : List Event} {node node' : Node V T}
    (h : execute pk name db mounts ords events = .ok node)
    (h' : execute pk name db mounts ords' events' = .ok node')
    (hbatches : (batched events).1 = (batched events').1) : node.commitIDs = node'.commitIDs := by
  have hopened := h
  simp only [execute, opened, bind_eq_ok] at hopened
  obtain ⟨_, ⟨fresh, hmount, -⟩, -⟩ := hopened
  obtain ⟨params, rfl, hparams⟩ := mounted_eq_ok hmount
  have hmounts := hseparate.wellMounted hiavl hparams
  -- both have returned what the commits of the batches return
  have hids : ∀ {ords events node}, execute pk name db mounts ords events = .ok node →
      node.commitIDs = (replay pk name params (batched events).1).1 := by
    intro ords events node h
    obtain ⟨stores, disks, commitIDs, saved, hexecute, -, hreplay⟩ :=
      execute_replay hmount hmounts ords (reaches_of_execute hmount hmounts h)
    rw [hexecute] at h
    cases h
    exact congrArg Prod.fst hreplay
  rw [hids h, hids h', hbatches]

section Witnesses

open Example

/-- A write that is committed and one that is not. -/
def someWrites : List Event :=
  [.write 0 (.set [1] [2]), .commit ascending, .write 1 (.set [1] [3])]

/-- Maps are gone through in descending order. -/
def descending : Orders := fun _ => ⟨List.reverse, List.reverse_perm⟩

/-- The other node has lost a write before. -/
theorem replicas_agree_restarted : ∃ node node' : Node Record (KVStore Bytes Bytes),
    execute packages names 0 mounts ascending someWrites = .ok node ∧
      execute packages names 0 mounts descending
        (.write 1 (.delete [3]) :: .restart descending :: someWrites) = .ok node' ∧
      node.commitIDs = node'.commitIDs := by
  obtain ⟨node, h, -⟩ := exists_of_passes (show passes (fun _ => true)
    (execute packages names 0 mounts ascending someWrites) = true by decide +kernel)
  obtain ⟨node', h', -⟩ := exists_of_passes (show passes (fun _ => true)
    (execute packages names 0 mounts descending
      (.write 1 (.delete [3]) :: .restart descending :: someWrites)) = true by decide +kernel)
  exact ⟨node, node', h, h', replicas_agree packages names (by decide) (by decide +kernel) h h' rfl⟩

theorem commits_durable_someWrites : ∃ node : Node Record (KVStore Bytes Bytes),
    execute packages names 0 mounts ascending someWrites = .ok node ∧ ∀ ords', ∃ rs,
      opened packages names 0 mounts ords' node.disks = .ok rs ∧
      rs.lastCommitID = lastID node.commitIDs ∧
      ∀ mount ∈ mounts, ∃ st, rs.stores[mount.key]? = some st ∧
        packages.get st.tree = (imageOf someWrites).committed mount.key := by
  obtain ⟨fresh, hfresh, hparams⟩ := exists_of_passes (show passes
    (fun fresh : RootMultiStore (KVStore Bytes Bytes) => decide
      (fresh.storesParams[0]? = some common ∧ fresh.storesParams[1]? = some common))
    (mounted 0 mounts) = true by decide +kernel)
  obtain ⟨hzero, hone⟩ := of_decide_eq_true hparams
  refine commits_durable packages names hfresh (by decide) (by decide +kernel) ascending ?_
  simp [someWrites, Event.Reaches, hzero, hone]

/-- Two keys with the same name can be mounted and committed, and then not be loaded. -/
theorem same_name_unloadable : ∃ node : Node Record (KVStore Bytes Bytes),
    execute packages (fun _ => [109]) 0 mounts ascending [.commit ascending] = .ok node ∧
      opened packages (fun _ => [109]) 0 mounts ascending node.disks =
        .error (.unusedCommitStoreLoader 1) := by
  obtain ⟨node, hnode, hfails⟩ := exists_of_passes (show passes
    (fun node => failsWith (.unusedCommitStoreLoader 1)
      (opened packages (fun _ => [109]) 0 mounts ascending node.disks))
    (execute packages (fun _ => [109]) 0 mounts ascending [.commit ascending]) = true by decide +kernel)
  exact ⟨node, hnode, error_of_failsWith hfails⟩

end Witnesses

/-! ## Crashes -/

/-- What is on the disks when a commit is interrupted: some stores are committed, and the commit info
is not written. -/
def crash (pk : Packages V T) (name : StoreKey → Bytes) (ords : Orders) (finished : ℕ)
    (node : Node V T) : Except Failure (Disks V) := do
  let done ← ((commitOrder ords node.rs).take finished).foldlM (commitEntry pk name)
    ⟨[], node.rs.stores, node.disks⟩
  return done.disks

/-- The latest version is loaded, and the writes and the commit are repeated. -/
def recover (pk : Packages V T) (name : StoreKey → Bytes) (db : ℕ) (mounts : List Mount)
    (ords ords' : Orders) (writes : List (StoreKey × Write)) (disks : Disks V) :
    Except Failure CommitID := do
  let rs ← opened pk name db mounts ords disks
  let rs ← writes.foldlM (fun rs kw => writeStore pk rs kw.1 kw.2) rs
  let (commitID, _, _) ← commit pk name ords' rs disks
  return commitID

/-- After a crash in a commit, when `finished` stores have been committed, the commit can be repeated,
and returns what it would have returned. -/
def Recoverable (pk : Packages V T) (name : StoreKey → Bytes) (db : ℕ) (mounts : List Mount)
    (events : List Event) (node : Node V T) (ords : Orders) (finished : ℕ) : Prop :=
  ∃ commitID rs disks crashed, commit pk name ords node.rs node.disks = .ok (commitID, rs, disks) ∧
    crash pk name ords finished node = .ok crashed ∧
    ∀ ords₁ ords₂, recover pk name db mounts ords₁ ords₂ (pending events) crashed = .ok commitID

section Crash

variable {db : ℕ} {params : KVStore StoreKey StoreParams} {mounts : List Mount}
  {stores : KVStore StoreKey (IavlStore T)} {disks : Disks V} {id : CommitID}
  {saved trees : StoreKey → T}

/-- The stores that were committed before the crash. -/
def finishedKeys (ords : Orders) (rs : RootMultiStore T) (finished : ℕ) : List StoreKey :=
  ((commitOrder ords rs).take finished).map Prod.fst

/-- What is on the disks after a crash: the stores that were committed have one version more. -/
structure Crashed (pk : Packages V T) (name : StoreKey → Bytes) (db : ℕ)
    (params : KVStore StoreKey StoreParams) (disks : Disks V) (id : CommitID)
    (saved trees : StoreKey → T) (keys : List StoreKey) (crashed : Disks V) : Prop
    extends Saved pk name db params crashed id saved where
  finished {key : StoreKey} {p : StoreParams} (hp : params[key]? = some p) (hkey : key ∈ keys) :
    (storeAt db (name key) p (trees key) id.version).commitPart pk (partAt db (name key) p disks) =
      .ok (partAt db (name key) p crashed)
  unfinished {key : StoreKey} {p : StoreParams} (hp : params[key]? = some p) (hkey : key ∉ keys) :
    partAt db (name key) p crashed = partAt db (name key) p disks

theorem crash_eq_ok (hmounts : WellMounted name db params)
    (h : Settled pk name db params disks id saved)
    (hmemory : InMemory name db params id.version trees stores) (ords : Orders) (finished : ℕ)
    (commitIDs : List CommitID) :
    ∃ crashed, crash pk name ords finished ⟨⟨db, id, params, stores⟩, disks, commitIDs⟩ = .ok crashed ∧
      Crashed pk name db params disks id saved trees
        (finishedKeys ords ⟨db, id, params, stores⟩ finished) crashed := by
  have hperm : (commitOrder ords ⟨db, id, params, stores⟩).Perm stores.toList := (ords 0).perm _
  have htake := List.take_sublist finished (commitOrder ords ⟨db, id, params, stores⟩)
  have hmem : ∀ entry ∈ (commitOrder ords ⟨db, id, params, stores⟩).take finished,
      ∃ p, params[entry.1]? = some p ∧
        entry.2 = storeAt db (name entry.1) p (trees entry.1) id.version :=
    fun entry hentry => hmemory.exists_params (hperm.mem_iff.mp (htake.subset hentry))
  obtain ⟨hreturns, hcommitted⟩ := commitEntries_spec pk name disks
    (fun entry hentry => KVStore.mem_toList.mp (hperm.mem_iff.mp (htake.subset hentry)))
    ((hmemory.pairwise hmounts hperm).sublist htake)
  obtain ⟨done, hdone⟩ := hreturns.mpr fun entry hentry => by
    obtain ⟨p, hp, hst⟩ := hmem entry hentry
    obtain ⟨part, hpart, -⟩ := (h.history hp).commit db (name entry.1) p (trees entry.1)
    rw [hst]
    exact ⟨part, hpart⟩
  have hall := hcommitted done hdone
  have hfinished : ∀ {key p}, params[key]? = some p →
      key ∈ finishedKeys ords ⟨db, id, params, stores⟩ finished →
      (storeAt db (name key) p (trees key) id.version).commitPart pk (partAt db (name key) p disks) =
        .ok (partAt db (name key) p done.disks) := by
    intro key p hp hkey
    obtain ⟨⟨key, st⟩, hentry, rfl⟩ := List.mem_map.mp hkey
    obtain ⟨p', hp', hst⟩ := hmem _ hentry
    rw [hp] at hp'
    cases hp'
    have hpart := hall.parts hentry
    rwa [hst] at hpart
  have hunfinished : ∀ {key p}, params[key]? = some p →
      key ∉ finishedKeys ords ⟨db, id, params, stores⟩ finished →
      partAt db (name key) p done.disks = partAt db (name key) p disks := by
    intro key p hp hkey
    refine hall.part_eq (storeAt db (name key) p (trees key) id.version) fun entry hentry => ?_
    obtain ⟨p', hp', hst⟩ := hmem entry hentry
    have hne : entry.1 ≠ key := fun heq => hkey (List.mem_map.mpr ⟨entry, hentry, heq⟩)
    rw [hst]
    exact hmounts.apart hp' hp hne
  have hlatest : done.disks db latestVersionKey = disks db latestVersionKey := by
    refine hall.frame fun entry hentry => ?_
    obtain ⟨p, -, hst⟩ := hmem entry hentry
    rw [hst]
    exact not_covers_latestVersionKey _ p db
  have hinfo : ∀ version, done.disks db (commitInfoKey version) = disks db (commitInfoKey version) := by
    intro version
    refine hall.frame fun entry hentry => ?_
    obtain ⟨p, -, hst⟩ := hmem entry hentry
    rw [hst]
    exact not_covers_commitInfoKey _ p db version
  refine ⟨done.disks, by simp only [crash, hdone]; rfl, ⟨?_, ?_, h.start, ?_⟩, hfinished, hunfinished⟩
  · rw [getLatestVersion, hlatest]
    exact h.latest
  · intro key p hp
    by_cases hkey : key ∈ finishedKeys ords ⟨db, id, params, stores⟩ finished
    · obtain ⟨part, hpart, -, -, hload, -⟩ := (h.history hp).commit db (name key) p (trees key)
      rw [hfinished hp hkey] at hpart
      rw [Except.ok.inj hpart, hload]
      exact h.loads hp
    · rw [hunfinished hp hkey]
      exact h.loads hp
  · rw [getCommitInfo, hinfo]
    exact h.info

theorem Crashed.commitPart_iff (h : Settled pk name db params disks id saved)
    {keys : List StoreKey} {crashed : Disks V}
    (hcrashed : Crashed pk name db params disks id saved trees keys crashed) {key : StoreKey}
    {p : StoreParams} (hp : params[key]? = some p) :
    (∃ part, (storeAt db (name key) p (trees key) id.version).commitPart pk
      (partAt db (name key) p crashed) = .ok part) ↔ (key ∈ keys → ¬ Releases id.version) := by
  obtain ⟨part, hpart, -, -, -, hreleased, hnew⟩ := (h.history hp).commit db (name key) p (trees key)
  by_cases hkey : key ∈ keys
  · obtain rfl := Except.ok.inj ((hcrashed.finished hp hkey).symm.trans hpart)
    constructor
    · rintro ⟨part', hpart'⟩ - hdue
      exact IavlStore.commitPart_missing (storeAt db (name key) p (trees key) id.version) hnew hdue
        (hreleased hdue) part' hpart'
    · intro hnot
      obtain ⟨part', hpart', -⟩ := storeAt_commitPart_eq_ok (name key) p (.inr hnew)
        fun hdue => absurd hdue (hnot hkey)
      exact ⟨part', hpart'⟩
  · rw [hcrashed.unfinished hp hkey]
    exact ⟨fun _ hmem => absurd hmem hkey, fun _ => ⟨part, hpart⟩⟩

/-- The repeated commit, up to what it returns. -/
theorem recover_spec (hmount : mounted db mounts = .ok (⟨db, {}, params, ∅⟩ : RootMultiStore T))
    (hmounts : WellMounted name db params) {writes : List (StoreKey × Write)}
    (hwrites : ∀ kw ∈ writes, ∃ p, params[kw.1]? = some p)
    (h : Settled pk name db params disks id saved) {keys : List StoreKey} {crashed : Disks V}
    (hcrashed : Crashed pk name db params disks id saved (afterWrites pk writes saved) keys crashed)
    (hkeys : ∀ key ∈ keys, ∃ p, params[key]? = some p) (ords ords' : Orders) :
    ((∃ commitID, recover pk name db mounts ords ords' writes crashed = .ok commitID) ↔
        (keys = [] ∨ ¬ Releases id.version)) ∧
      ∀ commitID, recover pk name db mounts ords ords' writes crashed = .ok commitID →
        commitID = nextID pk name params id.version (afterWrites pk writes saved) := by
  obtain ⟨stores, hopened, hmemory⟩ := opened_eq_ok hmount hmounts hcrashed.toSaved ords
  obtain ⟨stores', hwritten, hmemory'⟩ := writes_eq_ok pk hmemory hwrites id
  obtain ⟨hreturns, hspec⟩ := commit_spec pk crashed hmounts hmemory' ords'
  have hrecover : ∀ {commitID}, recover pk name db mounts ords ords' writes crashed = .ok commitID ↔
      ∃ result, commit pk name ords' ⟨db, id, params, stores'⟩ crashed = .ok result ∧
        result.1 = commitID := by
    intro commitID
    simp only [recover, hopened, bind_eq_ok, pure_eq_ok, Except.ok.injEq, exists_eq_left', hwritten]
  constructor
  · simp only [hrecover]
    constructor
    · rintro ⟨_, result, hresult, -⟩
      have hparts := hreturns.mp ⟨result, hresult⟩
      by_cases hnil : keys = []
      · exact .inl hnil
      · obtain ⟨key, hkey⟩ := List.exists_mem_of_ne_nil keys hnil
        obtain ⟨p, hp⟩ := hkeys key hkey
        exact .inr ((hcrashed.commitPart_iff h hp).mp (hparts key p hp) hkey)
    · intro hcond
      obtain ⟨result, hresult⟩ := hreturns.mpr fun key p hp => by
        refine (hcrashed.commitPart_iff h hp).mpr fun hkey => ?_
        rcases hcond with rfl | hnot
        · exact absurd hkey List.not_mem_nil
        · exact hnot
      exact ⟨_, result, hresult, rfl⟩
  · intro commitID hcommitID
    obtain ⟨result, hresult, rfl⟩ := hrecover.mp hcommitID
    obtain ⟨stores'', disks'', rfl, -⟩ := hspec result hresult
    rfl

theorem Tracks.recoverable_iff
    (hmount : mounted db mounts = .ok (⟨db, {}, params, ∅⟩ : RootMultiStore T))
    (hmounts : WellMounted name db params) {events : List Event} {commitIDs : List CommitID}
    (h : Tracks pk name db params events stores disks commitIDs saved) (ords : Orders)
    (finished : ℕ) :
    Recoverable pk name db mounts events (nodeOf db params stores disks commitIDs) ords finished ↔
      finishedKeys ords (nodeOf db params stores disks commitIDs).rs finished = [] ∨
        ¬ Releases (lastID commitIDs).version := by
  obtain ⟨stores', disks', hcommit, -⟩ := h.settled.commit hmounts h.memory ords
  obtain ⟨crashed, hcrash, hcrashed⟩ :=
    crash_eq_ok hmounts h.settled h.memory ords finished commitIDs
  have hkeys : ∀ key ∈ finishedKeys ords (nodeOf db params stores disks commitIDs).rs finished,
      ∃ p, params[key]? = some p := by
    intro key hkey
    obtain ⟨entry, hentry, rfl⟩ := List.mem_map.mp hkey
    obtain ⟨p, hp, -⟩ := h.memory.exists_params
      (((ords 0).perm _).mem_iff.mp (List.mem_of_mem_take hentry))
    exact ⟨p, hp⟩
  have hrecover := recover_spec hmount hmounts h.keys h.settled hcrashed hkeys
  constructor
  · rintro ⟨commitID, _, _, crashed', -, hcrash', hall⟩
    obtain rfl := Except.ok.inj (hcrash.symm.trans hcrash')
    exact (hrecover ords ords).1.mp ⟨commitID, hall ords ords⟩
  · intro hcond
    refine ⟨_, _, _, crashed, hcommit, hcrash, fun ords₁ ords₂ => ?_⟩
    obtain ⟨commitID, hcommitID⟩ := (hrecover ords₁ ords₂).1.mpr hcond
    rw [hcommitID, (hrecover ords₁ ords₂).2 commitID hcommitID]

end Crash

/-- A commit that was interrupted after some stores can be repeated exactly if no store was committed
yet, or the commit does not release an old version. -/
theorem crash_recoverable_iff (pk : Packages V T) (name : StoreKey → Bytes) {db : ℕ}
    {mounts : List Mount} (hiavl : ∀ mount ∈ mounts, mount.params.typ = .iavl)
    (hseparate : Separate name db mounts) {ords : Orders} {events : List Event} {node : Node V T}
    (hrun : execute pk name db mounts ords events = .ok node) (ords' : Orders) (finished : ℕ) :
    Recoverable pk name db mounts events node ords' finished ↔
      finishedKeys ords' node.rs finished = [] ∨ ¬ Releases node.rs.lastCommitID.version := by
  obtain ⟨fresh, hmount⟩ : ∃ fresh : RootMultiStore T, mounted db mounts = .ok fresh := by
    simp only [execute, opened, bind_eq_ok] at hrun
    obtain ⟨_, ⟨fresh, hfresh, -⟩, -⟩ := hrun
    exact ⟨fresh, hfresh⟩
  obtain ⟨params, rfl, hparams⟩ := mounted_eq_ok hmount
  have hmounts := hseparate.wellMounted hiavl hparams
  obtain ⟨stores, disks, commitIDs, saved, hexecute, htracks⟩ :=
    execute_tracks hmount hmounts ords (reaches_of_execute hmount hmounts hrun)
  obtain rfl := Except.ok.inj (hexecute.symm.trans hrun)
  exact htracks.recoverable_iff hmount hmounts ords' finished

section Witnesses

open Example

theorem crash_recoverable_iff_someWrites : ∃ node : Node Record (KVStore Bytes Bytes),
    execute packages names 0 mounts ascending someWrites = .ok node ∧
      Recoverable packages names 0 mounts someWrites node ascending 1 := by
  obtain ⟨node, hnode, hversion⟩ := exists_of_passes (show passes
    (fun node => decide (node.rs.lastCommitID.version = 1))
    (execute packages names 0 mounts ascending someWrites) = true by decide +kernel)
  refine ⟨node, hnode, ?_⟩
  refine (crash_recoverable_iff packages names (by decide) (by decide +kernel) hnode ascending 1).mpr ?_
  rw [of_decide_eq_true hversion]
  exact .inr (by decide)

/-- After 101 commits, a crash between the two stores cannot be recovered from. -/
theorem crash_unrecoverable : ∃ node : Node Record (KVStore Bytes Bytes),
    execute packages names 0 mounts ascending (List.replicate 101 (.commit ascending)) = .ok node ∧
      ¬ Recoverable packages names 0 mounts (List.replicate 101 (.commit ascending)) node
        ascending 1 := by
  obtain ⟨fresh, hfresh, -⟩ := exists_of_passes (show passes
    (fun _ : RootMultiStore (KVStore Bytes Bytes) => true) (mounted 0 mounts) = true by decide +kernel)
  obtain ⟨params, rfl, hparams⟩ := mounted_eq_ok hfresh
  have hmounts : WellMounted names 0 params :=
    Separate.wellMounted (by decide +kernel : Separate names 0 mounts) (by decide) hparams
  have hevents : ∀ event ∈ List.replicate 101 (Event.commit ascending), event.Reaches params := by
    intro event hevent
    rw [List.eq_of_mem_replicate hevent]
    trivial
  obtain ⟨stores, disks, commitIDs, saved, hexecute, htracks⟩ :
      ∃ stores disks commitIDs saved, execute packages names 0 mounts ascending
          (List.replicate 101 (.commit ascending)) = .ok (nodeOf 0 params stores disks commitIDs) ∧
        Tracks packages names 0 params (List.replicate 101 (.commit ascending)) stores disks commitIDs
          saved :=
    execute_tracks hfresh hmounts ascending hevents
  refine ⟨_, hexecute, fun hrecoverable => ?_⟩
  rcases (htracks.recoverable_iff hfresh hmounts ascending 1).mp hrecoverable with hnil | hnot
  · have hacc := htracks.memory.mem ((hparams 0 common).mpr (by decide))
    have hstores : stores.toList.take 1 = [] := List.map_eq_nil_iff.mp hnil
    rw [List.take_eq_nil_iff, or_iff_right Nat.one_ne_zero] at hstores
    rw [hstores] at hacc
    exact List.not_mem_nil hacc
  · rw [htracks.version, List.countP_replicate] at hnot
    exact hnot (by decide)

end Witnesses

end Tepleton.Store.Multi
