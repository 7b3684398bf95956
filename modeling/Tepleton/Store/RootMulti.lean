import Tepleton.Crypto.Merkle
import Tepleton.Lib.Region
import Tepleton.Types.Decimal

/-!
# The root multistore: `store/rootmultistore.go` and `store/iavlstore.go`

A root multistore keeps one IAVL tree for every mounted key.  In memory the trees are told apart by
the keys, which are pointers; on disk by the names of the keys: the name is part of the string that
all database keys of the tree start with, and it is under its name that a tree is listed in the commit
info.  A commit first commits the trees one after the other, each of them durably, and then writes the
commit info and the latest version.

Trees, the encoding of records and hash functions are in other packages; `Packages` is what is assumed
of them.  Where the code ranges over a Go map, the order is an input.
-/

namespace Tepleton.Store.Multi

open Lib Crypto.Merkle

/-! ## Data -/

/-- A `*KVStoreKey`.  Keys are compared as pointers. -/
abbrev StoreKey := ℕ

inductive StoreType
  | multi
  | db
  | iavl
  | other (typ : ℕ)
  deriving DecidableEq, Repr

structure CommitID where
  version : ℕ := 0
  hash : Crypto.Merkle.Slice := none
  deriving DecidableEq, Repr

/-- `storeInfo`, with the one field of its `storeCore`. -/
structure StoreInfo where
  name : Bytes
  commitID : CommitID
  deriving DecidableEq, Repr

structure CommitInfo where
  version : ℕ
  storeInfos : List StoreInfo
  deriving DecidableEq, Repr

/-- The panics and errors of the two files. -/
inductive Failure
  | duplicateStoreKey (key : StoreKey)
  | recursiveMultiStores
  | dbIsNotACommitStore
  | unrecognizedStoreType (typ : ℕ)
  | unknownName (name : Bytes)
  | nilStore (key : StoreKey)
  | saveVersion (err : String)
  | deleteVersion (err : String)
  | failedToLoad (err : String)
  | failedToGet (err : String)
  | unmarshalLatest (err : String)
  | unusedCommitStoreLoader (key : StoreKey)
  deriving DecidableEq, Repr

/-- The order in which a Go map is gone through. -/
structure MapOrder where
  arrange {α : Type} : List α → List α
  perm {α : Type} (entries : List α) : (arrange entries).Perm entries

/-- The orders in which one call goes through the maps it ranges over. -/
abbrev Orders := ℕ → MapOrder

/-- The order of the keys. -/
def MapOrder.ascending : MapOrder := ⟨id, fun _ => .refl _⟩

/-! ## Other packages -/

/-- `iavl.VersionedTree` with what it stores in its database, the codec, and hashes.  A tree of type
`T` is saved as a version: its new nodes get the number of the version (`persist`).

Assumed of trees is that they are maps, that `SaveVersion` stores the tree if the version is not there
or is the same tree, and that `DeleteVersion` deletes an old version that is there, and fails for one
that is not. -/
structure Packages (V T : Type) where
  empty : T
  get : T → Bytes → Option Bytes
  set : T → Bytes → Bytes → T
  remove : T → Bytes → T
  hash : T → Crypto.Merkle.Slice
  persist : ℕ → T → T
  stored : Database Byte V → ℕ → Option T
  saveVersion : Database Byte V → ℕ → T → Except String (Database Byte V)
  deleteVersion : Database Byte V → ℕ → Except String (Database Byte V)
  get_empty (k : Bytes) : get empty k = none
  get_set (tree : T) (k v k' : Bytes) : get (set tree k v) k' = if k = k' then some v else get tree k'
  get_remove (tree : T) (k k' : Bytes) :
    get (remove tree k) k' = if k = k' then none else get tree k'
  get_persist (version : ℕ) (tree : T) : get (persist version tree) = get tree
  stored_none (version : ℕ) : stored (fun _ => none) version = none
  saveVersion_eq_ok {db : Database Byte V} {version : ℕ} {tree : T} :
    stored db version = none ∨ stored db version = some (persist version tree) →
      ∃ db', saveVersion db version tree = .ok db' ∧
        stored db' = Function.update (stored db) version (some (persist version tree))
  deleteVersion_eq_ok {db : Database Byte V} {version latest : ℕ} :
    stored db version ≠ none → version < latest → stored db latest ≠ none →
      ∃ db', deleteVersion db version = .ok db' ∧
        stored db' = Function.update (stored db) version none
  deleteVersion_missing {db : Database Byte V} {version : ℕ} :
    stored db version = none → ∃ err, deleteVersion db version = .error err
  marshalInt64 : ℕ → V
  unmarshalInt64 : V → Except String ℕ
  unmarshalInt64_marshal (n : ℕ) : unmarshalInt64 (marshalInt64 n) = .ok n
  marshalCommitInfo : CommitInfo → V
  unmarshalCommitInfo : V → Except String CommitInfo
  unmarshalCommitInfo_marshal (info : CommitInfo) :
    unmarshalCommitInfo (marshalCommitInfo info) = .ok info
  coreHash : CommitID → Bytes
  hashing : Hashing

/-- Several databases; `rootMultiStore.db` is one of them. -/
abbrev Disks (V : Type) := ℕ → Database Byte V

variable {V T : Type} (pk : Packages V T)

/-- `VersionedTree.LoadVersion`; version 0 is the empty tree. -/
def Packages.loadVersion (db : Database Byte V) (version : ℕ) : Except String T :=
  if version = 0 then .ok pk.empty
  else
    match pk.stored db version with
    | some tree => .ok tree
    | none => .error "version does not exist"

/-! ## `iavlStore` -/

def defaultIAVLNumRecent : ℕ := 100

def defaultIAVLStoreEvery : ℕ := 10000

/-- `iavlStore`: the tree as it is in memory, the version it was saved as last, and where it is
saved. -/
structure IavlStore (T : Type) where
  db : ℕ
  space : Bytes
  tree : T
  version : ℕ
  numRecent : ℕ
  storeEvery : ℕ

def loadIAVLStore (disks : Disks V) (db : ℕ) (space : Bytes) (id : CommitID) :
    Except String (IavlStore T) := do
  let tree ← pk.loadVersion (under (disks db) space) id.version
  return ⟨db, space, tree, id.version, defaultIAVLNumRecent, defaultIAVLStoreEvery⟩

namespace IavlStore

/-- The database of the tree. -/
def part (st : IavlStore T) (disks : Disks V) : Database Byte V := under (disks st.db) st.space

/-- The databases with another database of the tree. -/
def writePart (st : IavlStore T) (disks : Disks V) (part : Database Byte V) : Disks V :=
  Function.update disks st.db (putUnder (disks st.db) st.space part)

/-- What `iavlStore.Commit` does to the database of the tree: it saves a version, and releases an old
one that is not a waypoint. -/
def commitPart (st : IavlStore T) (db : Database Byte V) : Except Failure (Database Byte V) := do
  let version := st.version + 1
  let db ← (pk.saveVersion db version st.tree).mapError .saveVersion
  let previous := version - 1
  if st.numRecent < previous then
    let toRelease := previous - st.numRecent
    if st.storeEvery = 0 ∨ toRelease % st.storeEvery ≠ 0 then
      (pk.deleteVersion db toRelease).mapError .deleteVersion
    else return db
  else return db

/-- The store in memory after its commit. -/
def next (st : IavlStore T) : IavlStore T :=
  { st with tree := pk.persist (st.version + 1) st.tree, version := st.version + 1 }

def lastCommitID (st : IavlStore T) : CommitID := ⟨st.version, pk.hash st.tree⟩

def commit (st : IavlStore T) (disks : Disks V) :
    Except Failure (CommitID × IavlStore T × Disks V) := do
  let part ← st.commitPart pk (st.part disks)
  return ((st.next pk).lastCommitID pk, st.next pk, st.writePart disks part)

end IavlStore

/-! ## `rootMultiStore` -/

/-- `storeParams`; without a database of its own the store uses the common one. -/
structure StoreParams where
  typ : StoreType
  db : Option ℕ
  deriving DecidableEq, Repr

structure RootMultiStore (T : Type) where
  db : ℕ
  lastCommitID : CommitID
  storesParams : KVStore StoreKey StoreParams
  stores : KVStore StoreKey (IavlStore T)

def newCommitMultiStore (db : ℕ) : RootMultiStore T := ⟨db, {}, ∅, ∅⟩

def mountStoreWithDB (rs : RootMultiStore T) (key : StoreKey) (params : StoreParams) :
    Except Failure (RootMultiStore T) :=
  match rs.storesParams[key]? with
  | some _ => .error (.duplicateStoreKey key)
  | none => .ok { rs with storesParams := rs.storesParams.insert key params }

variable (name : StoreKey → Bytes)

/-- The text `s/latest`. -/
def latestVersionKey : Bytes := [115, 47, 108, 97, 116, 101, 115, 116]

/-- The text `s/<version>`. -/
def commitInfoKey (version : ℕ) : Bytes := 115 :: 47 :: decimal version

/-- The text `s/_/`, for a store with its own database. -/
def ownSpace : Bytes := [115, 47, 95, 47]

/-- The text `s/k:<name>/`. -/
def namedSpace (name : Bytes) : Bytes := [115, 47, 107, 58] ++ name ++ [47]

/-- Where a store has its tree: the database, and how its keys start. -/
def location (db : ℕ) (name : Bytes) (params : StoreParams) : ℕ × Bytes :=
  match params.db with
  | some own => (own, ownSpace)
  | none => (db, namedSpace name)

/-- `loadCommitStoreFromParams`.  The errors that it returns have the text in front of them that the
callers add. -/
def loadCommitStoreFromParams (rs : RootMultiStore T) (disks : Disks V) (id : CommitID)
    (key : StoreKey) (params : StoreParams) : Except Failure (IavlStore T) :=
  let place := location rs.db (name key) params
  match params.typ with
  | .multi => .error .recursiveMultiStores
  | .iavl => (loadIAVLStore pk disks place.1 place.2 id).mapError .failedToLoad
  | .db => .error .dbIsNotACommitStore
  | .other typ => .error (.unrecognizedStoreType typ)

def nameToKey (ord : MapOrder) (rs : RootMultiStore T) (text : Bytes) : Except Failure StoreKey :=
  match (ord.arrange rs.storesParams.toList).find? fun entry => name entry.1 = text with
  | some entry => .ok entry.1
  | none => .error (.unknownName text)

def StoreInfo.hash (info : StoreInfo) : Crypto.Merkle.Slice := some (pk.coreHash info.commitID)

/-- The map that `commitInfo.Hash` makes. -/
def CommitInfo.byName (ci : CommitInfo) : KVStore Bytes StoreInfo :=
  ci.storeInfos.foldl (fun m info => m.insert info.name info) ∅

def CommitInfo.hash (ord : MapOrder) (ci : CommitInfo) : Crypto.Merkle.Slice :=
  simpleHashFromMap pk.hashing (StoreInfo.hash pk) (ord.arrange ci.byName.toList)

def CommitInfo.commitID (ord : MapOrder) (ci : CommitInfo) : CommitID := ⟨ci.version, ci.hash pk ord⟩

def getLatestVersion (db : Database Byte V) : Except Failure ℕ :=
  match db latestVersionKey with
  | none => .ok 0
  | some bz => (pk.unmarshalInt64 bz).mapError .unmarshalLatest

def getCommitInfo (db : Database Byte V) (version : ℕ) : Except Failure CommitInfo :=
  match db (commitInfoKey version) with
  | none => .error (.failedToGet "no data")
  | some bz => (pk.unmarshalCommitInfo bz).mapError .failedToGet

/-- The loop of `LoadVersion` for version 0. -/
def loadEmptyStores (ord : MapOrder) (rs : RootMultiStore T) (disks : Disks V) :
    Except Failure (KVStore StoreKey (IavlStore T)) :=
  (ord.arrange rs.storesParams.toList).foldlM (fun stores entry => do
    let store ← loadCommitStoreFromParams pk name rs disks {} entry.1 entry.2
    return stores.insert entry.1 store) rs.stores

/-- The loop of `LoadVersion` over the commit info.  Each lookup of a name goes through the mounted
stores in an order of its own.  A key that is not mounted has the zero parameters. -/
def loadStores (ords : Orders) (rs : RootMultiStore T) (disks : Disks V) :
    List StoreInfo → KVStore StoreKey (IavlStore T) →
      Except Failure (KVStore StoreKey (IavlStore T))
  | [], newStores => .ok newStores
  | info :: infos, newStores => do
      let key ← nameToKey name (ords infos.length) rs info.name
      let params := (rs.storesParams[key]?).getD ⟨.multi, none⟩
      let store ← loadCommitStoreFromParams pk name rs disks info.commitID key params
      loadStores ords rs disks infos (newStores.insert key store)

def loadVersion (ords : Orders) (rs : RootMultiStore T) (disks : Disks V) (version : ℕ) :
    Except Failure (RootMultiStore T) :=
  if version = 0 then do
    let stores ← loadEmptyStores pk name (ords 0) rs disks
    return { rs with stores, lastCommitID := {} }
  else do
    let cInfo ← getCommitInfo pk (disks rs.db) version
    let newStores ← loadStores pk name ords rs disks cInfo.storeInfos ∅
    match ((ords 0).arrange rs.storesParams.toList).find? fun entry => newStores[entry.1]?.isNone with
    | some entry => .error (.unusedCommitStoreLoader entry.1)
    | none => return { rs with stores := newStores, lastCommitID := cInfo.commitID pk (ords 1) }

def loadLatestVersion (ords : Orders) (rs : RootMultiStore T) (disks : Disks V) :
    Except Failure (RootMultiStore T) := do
  let version ← getLatestVersion pk (disks rs.db)
  loadVersion pk name ords rs disks version

/-- How far `commitStores` has come: the infos so far, the stores in memory and the databases. -/
structure Progress (V T : Type) where
  infos : List StoreInfo
  stores : KVStore StoreKey (IavlStore T)
  disks : Disks V

/-- One round of `commitStores`. -/
def commitEntry (done : Progress V T) (entry : StoreKey × IavlStore T) :
    Except Failure (Progress V T) := do
  let (commitID, store, disks) ← entry.2.commit pk done.disks
  return ⟨done.infos ++ [⟨name entry.1, commitID⟩], done.stores.insert entry.1 store, disks⟩

/-- The order in which `Commit` commits the stores. -/
def commitOrder (ords : Orders) (rs : RootMultiStore T) : List (StoreKey × IavlStore T) :=
  (ords 0).arrange rs.stores.toList

def commitStores (ords : Orders) (rs : RootMultiStore T) (disks : Disks V) :
    Except Failure (Progress V T) :=
  (commitOrder ords rs).foldlM (commitEntry pk name) ⟨[], rs.stores, disks⟩

/-- The batch that `Commit` writes. -/
def withCommitInfo (db : ℕ) (disks : Disks V) (version : ℕ) (cInfo : CommitInfo) : Disks V :=
  let disk := put (disks db) (commitInfoKey version) (pk.marshalCommitInfo cInfo)
  Function.update disks db (put disk latestVersionKey (pk.marshalInt64 version))

def commit (ords : Orders) (rs : RootMultiStore T) (disks : Disks V) :
    Except Failure (CommitID × RootMultiStore T × Disks V) := do
  let version := rs.lastCommitID.version + 1
  let done ← commitStores pk name ords rs disks
  let commitInfo : CommitInfo := ⟨version, done.infos⟩
  let disks := withCommitInfo pk rs.db done.disks version commitInfo
  let commitID := commitInfo.commitID pk (ords 1)
  return (commitID, { rs with stores := done.stores, lastCommitID := commitID }, disks)

/-! ## Sequences of calls -/

/-- A write to one store. -/
inductive Write
  | set (k v : Bytes)
  | delete (k : Bytes)
  deriving DecidableEq, Repr

/-- `iavlStore.Set`, `iavlStore.Delete`. -/
def Write.apply (tree : T) : Write → T
  | .set k v => pk.set tree k v
  | .delete k => pk.remove tree k

/-- A write through a key. -/
def writeStore (rs : RootMultiStore T) (key : StoreKey) (w : Write) :
    Except Failure (RootMultiStore T) :=
  match rs.stores[key]? with
  | none => .error (.nilStore key)
  | some st => .ok { rs with stores := rs.stores.insert key { st with tree := w.apply pk st.tree } }

/-- A `MountStoreWithDB` call. -/
structure Mount where
  key : StoreKey
  params : StoreParams
  deriving DecidableEq, Repr

/-- A new multistore with some mounts. -/
def mounted (db : ℕ) (mounts : List Mount) : Except Failure (RootMultiStore T) :=
  mounts.foldlM (fun rs mount => mountStoreWithDB rs mount.key mount.params)
    (newCommitMultiStore db)

/-- A new multistore that has loaded the latest version. -/
def opened (db : ℕ) (mounts : List Mount) (ords : Orders) (disks : Disks V) :
    Except Failure (RootMultiStore T) := do
  let rs ← mounted db mounts
  loadLatestVersion pk name ords rs disks

/-- What is done with a multistore.  A restart loses what is in memory, and the same stores are mounted
again. -/
inductive Event
  | write (key : StoreKey) (w : Write)
  | commit (ords : Orders)
  | restart (ords : Orders)

/-- A multistore, the databases and what the commits so far have returned. -/
structure Node (V T : Type) where
  rs : RootMultiStore T
  disks : Disks V
  commitIDs : List CommitID

/-- What an event does. -/
def step (mounts : List Mount) (node : Node V T) : Event → Except Failure (Node V T)
  | .write key w => do
      let rs ← writeStore pk node.rs key w
      return { node with rs }
  | .commit ords => do
      let (commitID, rs, disks) ← commit pk name ords node.rs node.disks
      return ⟨rs, disks, node.commitIDs ++ [commitID]⟩
  | .restart ords => do
      let rs ← opened pk name node.rs.db mounts ords node.disks
      return { node with rs }

/-- A multistore is created on empty databases, loaded and used. -/
def execute (db : ℕ) (mounts : List Mount) (ords : Orders) (events : List Event) :
    Except Failure (Node V T) := do
  let rs ← opened pk name db mounts ords fun _ _ => none
  events.foldlM (step pk name mounts) ⟨rs, fun _ _ => none, []⟩

end Tepleton.Store.Multi
