import Tepleton.Store.RootMulti

/-!
# Loading and committing a root multistore

The stores of a multistore do not meet on disk if no two of them have the same name or a database key
in common (`WellMounted`).  Then each of them can be followed on its own:

* `commitEntries_spec`: the loop over the stores succeeds if each commit would succeed by itself, and
  does to each store what that commit would do;
* `loadLatestVersion_eq_ok`: loading finds the trees that were saved last, in whatever order Go goes
  through its maps;
* `commit_spec`, `Settled.commit`: what a commit returns, and what it leaves on disk.
-/

namespace Tepleton.Store.Multi

open Lib Crypto.Merkle

variable {V T : Type} {pk : Packages V T} {name : StoreKey → Bytes}

/-! ## One store -/

/-- A commit on top of this version releases an old one. -/
def ReleaseDue (numRecent storeEvery version : ℕ) : Prop :=
  numRecent < version ∧ (storeEvery = 0 ∨ (version - numRecent) % storeEvery ≠ 0)

instance (numRecent storeEvery version : ℕ) : Decidable (ReleaseDue numRecent storeEvery version) :=
  inferInstanceAs (Decidable (_ ∧ _))

namespace IavlStore

variable {db : Database Byte V}

theorem commitPart_eq (st : IavlStore T) (db : Database Byte V) : st.commitPart pk db = (do
    let db ← (pk.saveVersion db (st.version + 1) st.tree).mapError .saveVersion
    if ReleaseDue st.numRecent st.storeEvery st.version then
      (pk.deleteVersion db (st.version - st.numRecent)).mapError .deleteVersion
    else return db) := by
  simp only [commitPart, Nat.add_sub_cancel, ReleaseDue]
  congr 1
  funext saved
  by_cases hrecent : st.numRecent < st.version
  · simp [hrecent]
  · simp [hrecent]

/-- A commit adds a version and drops the one that is due. -/
theorem commitPart_eq_ok (st : IavlStore T)
    (hsave : pk.stored db (st.version + 1) = none ∨
      pk.stored db (st.version + 1) = some (st.next pk).tree)
    (hrelease : ReleaseDue st.numRecent st.storeEvery st.version →
      pk.stored db (st.version - st.numRecent) ≠ none) :
    ∃ db', st.commitPart pk db = .ok db' ∧ ∀ version, pk.stored db' version =
      if ReleaseDue st.numRecent st.storeEvery st.version ∧ version = st.version - st.numRecent
      then none
      else if version = st.version + 1 then some (st.next pk).tree else pk.stored db version := by
  obtain ⟨saved, hsaved, hstored⟩ := pk.saveVersion_eq_ok hsave
  rw [commitPart_eq, hsaved]
  by_cases hdue : ReleaseDue st.numRecent st.storeEvery st.version
  · have hold : st.version - st.numRecent < st.version + 1 := by omega
    have hthere : pk.stored saved (st.version - st.numRecent) ≠ none := by
      rw [hstored, Function.update_of_ne hold.ne]
      exact hrelease hdue
    have hnew : pk.stored saved (st.version + 1) ≠ none := by
      rw [hstored, Function.update_self]
      exact Option.some_ne_none _
    obtain ⟨db', hdeleted, hstored'⟩ := pk.deleteVersion_eq_ok hthere hold hnew
    refine ⟨db', ?_, fun version => ?_⟩
    · simp only [Except.mapError, bind, Except.bind, if_pos hdue, hdeleted]
    · rw [hstored', hstored]
      simp only [Function.update_apply, hdue, true_and]
      rfl
  · refine ⟨saved, ?_, fun version => ?_⟩
    · simp only [Except.mapError, bind, Except.bind, if_neg hdue]
      rfl
    · rw [hstored, if_neg fun h => hdue h.1, Function.update_apply]
      rfl

theorem commitPart_missing (st : IavlStore T)
    (hsave : pk.stored db (st.version + 1) = some (st.next pk).tree)
    (hdue : ReleaseDue st.numRecent st.storeEvery st.version)
    (hmissing : pk.stored db (st.version - st.numRecent) = none) (db' : Database Byte V) :
    st.commitPart pk db ≠ .ok db' := by
  obtain ⟨saved, hsaved, hstored⟩ := pk.saveVersion_eq_ok (.inr hsave)
  have hold : st.version - st.numRecent ≠ st.version + 1 := by omega
  obtain ⟨err, herr⟩ : ∃ err, pk.deleteVersion saved (st.version - st.numRecent) = .error err := by
    apply pk.deleteVersion_missing
    rw [hstored, Function.update_of_ne hold]
    exact hmissing
  rw [commitPart_eq, hsaved]
  simp only [Except.mapError, bind, Except.bind, if_pos hdue, herr]
  exact nofun

/-- The database and the string that the keys of a store start with. -/
def place (st : IavlStore T) : ℕ × Bytes := (st.db, st.space)

end IavlStore

/-- Two stores have no database key in common. -/
def PlaceApart (place place' : ℕ × Bytes) : Prop := place.1 ≠ place'.1 ∨ Apart place.2 place'.2

instance (place place' : ℕ × Bytes) : Decidable (PlaceApart place place') :=
  inferInstanceAs (Decidable (_ ∨ _))

theorem PlaceApart.symm {place place' : ℕ × Bytes} (h : PlaceApart place place') :
    PlaceApart place' place :=
  h.imp Ne.symm Apart.symm

/-- The database key belongs to the store at this place. -/
def Covers (place : ℕ × Bytes) (db : ℕ) (key : Bytes) : Prop := place.1 = db ∧ place.2 <+: key

theorem PlaceApart.not_covers {place place' : ℕ × Bytes} (h : PlaceApart place place')
    (key : Bytes) : ¬ Covers place place'.1 (place'.2 ++ key) := by
  rintro ⟨hdb, hstart⟩
  rcases h with hne | hapart
  · exact hne hdb
  · exact hapart.not_start key hstart

namespace IavlStore

@[simp] theorem part_writePart_self (st : IavlStore T) (disks : Disks V) (part : Database Byte V) :
    st.part (st.writePart disks part) = part := by
  rw [IavlStore.part, writePart, Function.update_self, under_putUnder_self]

theorem writePart_of_not_covers {st : IavlStore T} {db : ℕ} {key : Bytes}
    (h : ¬ Covers st.place db key) (disks : Disks V) (part : Database Byte V) :
    st.writePart disks part db key = disks db key := by
  by_cases hdb : db = st.db
  · subst hdb
    have hstart : ¬ st.space <+: key := fun hstart => h ⟨rfl, hstart⟩
    rw [writePart, Function.update_self, putUnder_of_not hstart]
  · rw [writePart, Function.update_of_ne hdb]

theorem part_writePart_of_apart {st st' : IavlStore T} (h : PlaceApart st.place st'.place)
    (disks : Disks V) (part : Database Byte V) :
    st'.part (st.writePart disks part) = st'.part disks :=
  funext fun key => writePart_of_not_covers (h.not_covers key) disks part

end IavlStore

/-! ## The loop over the stores -/

section Loop

variable {stores : KVStore StoreKey (IavlStore T)} {disks : Disks V}

/-- What is recorded of a store. -/
def infoOf (pk : Packages V T) (name : StoreKey → Bytes) (entry : StoreKey × IavlStore T) :
    StoreInfo :=
  ⟨name entry.1, (entry.2.next pk).lastCommitID pk⟩

/-- What the loop has done when it has committed some of the stores. -/
structure Committed (pk : Packages V T) (name : StoreKey → Bytes)
    (stores : KVStore StoreKey (IavlStore T)) (disks : Disks V)
    (entries : List (StoreKey × IavlStore T)) (done : Progress V T) : Prop where
  infos : done.infos = entries.map (infoOf pk name)
  stores (key : StoreKey) : done.stores[key]? =
    if key ∈ entries.map Prod.fst then stores[key]?.map fun st => st.next pk else stores[key]?
  parts {entry : StoreKey × IavlStore T} (h : entry ∈ entries) :
    entry.2.commitPart pk (entry.2.part disks) = .ok (entry.2.part done.disks)
  frame {db : ℕ} {key : Bytes} (h : ∀ entry ∈ entries, ¬ Covers entry.2.place db key) :
    done.disks db key = disks db key

variable {entries : List (StoreKey × IavlStore T)} {done : Progress V T}

theorem Committed.part_eq (h : Committed pk name stores disks entries done) (st : IavlStore T)
    (hapart : ∀ entry ∈ entries, PlaceApart entry.2.place st.place) :
    st.part done.disks = st.part disks :=
  funext fun key => h.frame fun entry hentry => (hapart entry hentry).not_covers key

theorem commitEntry_eq_ok {done' : Progress V T} {entry : StoreKey × IavlStore T} :
    commitEntry pk name done entry = .ok done' ↔
      ∃ part, entry.2.commitPart pk (entry.2.part done.disks) = .ok part ∧
        done' = ⟨done.infos ++ [infoOf pk name entry], done.stores.insert entry.1 (entry.2.next pk),
          entry.2.writePart done.disks part⟩ := by
  simp only [commitEntry, IavlStore.commit, bind_eq_ok, pure_eq_ok]
  constructor
  · rintro ⟨_, ⟨part, hpart, rfl⟩, rfl⟩
    exact ⟨part, hpart, rfl⟩
  · rintro ⟨part, hpart, rfl⟩
    exact ⟨_, ⟨part, hpart, rfl⟩, rfl⟩

/-- One more store. -/
theorem Committed.snoc (h : Committed pk name stores disks entries done)
    {entry : StoreKey × IavlStore T} (hentry : stores[entry.1]? = some entry.2)
    (hapart : ∀ other ∈ entries, other.1 ≠ entry.1 ∧ PlaceApart other.2.place entry.2.place)
    {done' : Progress V T} (hdone : commitEntry pk name done entry = .ok done') :
    Committed pk name stores disks (entries ++ [entry]) done' := by
  obtain ⟨part, hpart, rfl⟩ := commitEntry_eq_ok.mp hdone
  have hsame := h.part_eq entry.2 fun other hother => (hapart other hother).2
  rw [hsame] at hpart
  refine ⟨?_, fun key => ?_, ?_, ?_⟩
  · rw [h.infos, List.map_append]
    rfl
  · simp only [KVStore.getElem?_insert, h.stores, List.map_append, List.mem_append]
    by_cases hkey : entry.1 = key
    · subst hkey
      simp [hentry]
    · have hnot : key ∉ [entry].map Prod.fst := by simpa using Ne.symm hkey
      simp only [if_neg hkey, hnot, or_false]
  · intro other hother
    rcases List.mem_append.mp hother with hother | hother
    · rw [h.parts hother]
      congr 1
      exact (IavlStore.part_writePart_of_apart (hapart other hother).2.symm _ _).symm
    · obtain rfl := List.mem_singleton.mp hother
      rw [hpart]
      congr 1
      exact (IavlStore.part_writePart_self _ _ _).symm
  · intro db key hnot
    refine (IavlStore.writePart_of_not_covers (hnot entry (by simp)) _ _).trans ?_
    exact h.frame fun other hother => hnot other (by simp [hother])

/-- The loop succeeds if every store can be committed on its own. -/
theorem commitEntries_spec (pk : Packages V T) (name : StoreKey → Bytes) (disks : Disks V)
    (hentries : ∀ entry ∈ entries, stores[entry.1]? = some entry.2)
    (hapart : entries.Pairwise fun entry entry' =>
      entry.1 ≠ entry'.1 ∧ PlaceApart entry.2.place entry'.2.place) :
    ((∃ done, entries.foldlM (commitEntry pk name) ⟨[], stores, disks⟩ = .ok done) ↔
      ∀ entry ∈ entries, ∃ part, entry.2.commitPart pk (entry.2.part disks) = .ok part) ∧
    ∀ done, entries.foldlM (commitEntry pk name) ⟨[], stores, disks⟩ = .ok done →
      Committed pk name stores disks entries done := by
  have hsplit_apart : ∀ {done entry rest}, entries = done ++ entry :: rest →
      ∀ other ∈ done, other.1 ≠ entry.1 ∧ PlaceApart other.2.place entry.2.place := by
    intro done entry rest hsplit other hother
    rw [hsplit, List.pairwise_append] at hapart
    exact hapart.2.2 other hother entry List.mem_cons_self
  refine foldlM_tracks (Committed pk name stores disks)
    (fun entry => ∃ part, entry.2.commitPart pk (entry.2.part disks) = .ok part) ?_ ?_ ?_
  · exact ⟨rfl, fun key => by simp, fun h => absurd h List.not_mem_nil, fun _ => rfl⟩
  · rintro done entry rest t hsplit ht ⟨part, hpart⟩
    have hbefore := hsplit_apart hsplit
    rw [← ht.part_eq entry.2 fun other hother => (hbefore other hother).2] at hpart
    obtain ⟨t', ht'⟩ : ∃ t', commitEntry pk name t entry = .ok t' :=
      ⟨_, commitEntry_eq_ok.mpr ⟨part, hpart, rfl⟩⟩
    refine ⟨t', ht', ht.snoc (hentries entry ?_) hbefore ht'⟩
    rw [hsplit]
    exact List.mem_append_cons_self
  · intro done entry rest t t' hsplit ht hdone
    obtain ⟨part, hpart, -⟩ := commitEntry_eq_ok.mp hdone
    rw [ht.part_eq entry.2 fun other hother => (hsplit_apart hsplit other hother).2] at hpart
    exact ⟨part, hpart⟩

end Loop

/-! ## The hash of a commit info -/

theorem CommitInfo.hash_eq {infos infos' : List StoreInfo} (hperm : infos.Perm infos')
    (hnodup : (infos.map StoreInfo.name).Nodup) (version version' : ℕ) (ord ord' : MapOrder) :
    (CommitInfo.mk version infos).hash pk ord = (CommitInfo.mk version' infos').hash pk ord' := by
  have hmap : (CommitInfo.mk version infos).byName = (CommitInfo.mk version' infos').byName := by
    refine hperm.foldl_eq' (fun info hinfo info' hinfo' m => ?_) ∅
    by_cases hname : info.name = info'.name
    · rw [List.inj_on_of_nodup_map hnodup hinfo hinfo' hname]
    · exact (KVStore.insert_comm m info' info (Ne.symm hname)).symm
  rw [CommitInfo.hash, CommitInfo.hash, simpleHashFromMap_of_perm (ord.perm _),
    simpleHashFromMap_of_perm (ord'.perm _), hmap]

/-! ## Mounted stores -/

/-- All stores are IAVL stores, and no two have the same name or a database key in common. -/
structure WellMounted (name : StoreKey → Bytes) (db : ℕ) (params : KVStore StoreKey StoreParams) :
    Prop where
  iavl {key : StoreKey} {p : StoreParams} (h : params[key]? = some p) : p.typ = .iavl
  name_inj {key key' : StoreKey} {p p' : StoreParams} (h : params[key]? = some p)
    (h' : params[key']? = some p') (hname : name key = name key') : key = key'
  apart {key key' : StoreKey} {p p' : StoreParams} (h : params[key]? = some p)
    (h' : params[key']? = some p') (hne : key ≠ key') :
    PlaceApart (location db (name key) p) (location db (name key') p')

/-- A store in memory. -/
def storeAt (db : ℕ) (text : Bytes) (p : StoreParams) (tree : T) (version : ℕ) : IavlStore T :=
  ⟨(location db text p).1, (location db text p).2, tree, version, defaultIAVLNumRecent,
    defaultIAVLStoreEvery⟩

/-- The database of a store. -/
def partAt (db : ℕ) (text : Bytes) (p : StoreParams) (disks : Disks V) : Database Byte V :=
  under (disks (location db text p).1) (location db text p).2

/-- Every mounted store is in memory, and no other. -/
def InMemory (name : StoreKey → Bytes) (db : ℕ) (params : KVStore StoreKey StoreParams)
    (version : ℕ) (trees : StoreKey → T) (stores : KVStore StoreKey (IavlStore T)) : Prop :=
  ∀ key, stores[key]? = params[key]?.map fun p => storeAt db (name key) p (trees key) version

/-- The keys of the mounted stores, in some order. -/
def Lists (params : KVStore StoreKey StoreParams) (keys : List StoreKey) : Prop :=
  keys.Perm (params.toList.map Prod.fst)

/-- What the commit info says about some stores. -/
def infosOf (pk : Packages V T) (name : StoreKey → Bytes) (version : ℕ) (trees : StoreKey → T)
    (keys : List StoreKey) : List StoreInfo :=
  keys.map fun key => ⟨name key, ⟨version, pk.hash (trees key)⟩⟩

section Mounted

variable {db : ℕ} {params : KVStore StoreKey StoreParams} {version : ℕ} {trees : StoreKey → T}
  {stores : KVStore StoreKey (IavlStore T)} {disks : Disks V}

variable {keys : List StoreKey} {key : StoreKey} {p : StoreParams} {rs : RootMultiStore T}
  {id : CommitID} {entries : List (StoreKey × IavlStore T)} {part : Database Byte V}

theorem Lists.mem_iff (h : Lists params keys) : key ∈ keys ↔ ∃ p, params[key]? = some p := by
  rw [List.Perm.mem_iff h, List.mem_map]
  constructor
  · rintro ⟨⟨key, p⟩, hentry, rfl⟩
    exact ⟨p, KVStore.mem_toList.mp hentry⟩
  · rintro ⟨p, hp⟩
    exact ⟨(key, p), KVStore.mem_toList.mpr hp, rfl⟩

theorem WellMounted.nodup_names (h : WellMounted name db params) (hkeys : Lists params keys)
    (version : ℕ) (trees : StoreKey → T) :
    ((infosOf pk name version trees keys).map StoreInfo.name).Nodup := by
  rw [infosOf, List.map_map]
  have hnodup : keys.Nodup := (List.Perm.nodup_iff hkeys).mpr (KVStore.keys_nodup params)
  refine List.Nodup.map_on (fun key hkey key' hkey' hname => ?_) hnodup
  obtain ⟨p, hp⟩ := hkeys.mem_iff.mp hkey
  obtain ⟨p', hp'⟩ := hkeys.mem_iff.mp hkey'
  exact h.name_inj hp hp' hname

theorem WellMounted.hash_eq (h : WellMounted name db params) {keys' : List StoreKey}
    (hkeys : Lists params keys) (hkeys' : Lists params keys') (ord ord' : MapOrder) :
    (CommitInfo.mk version (infosOf pk name version trees keys)).hash pk ord =
      (CommitInfo.mk version (infosOf pk name version trees keys')).hash pk ord' := by
  refine CommitInfo.hash_eq ?_ (h.nodup_names hkeys version trees) _ _ ord ord'
  exact (List.Perm.trans hkeys hkeys'.symm).map _

theorem InMemory.exists_params (h : InMemory name db params version trees stores)
    {entry : StoreKey × IavlStore T} (hentry : entry ∈ stores.toList) :
    ∃ p, params[entry.1]? = some p ∧
      entry.2 = storeAt db (name entry.1) p (trees entry.1) version := by
  have hstore := h entry.1
  rw [KVStore.mem_toList.mp hentry] at hstore
  obtain ⟨p, hp, hst⟩ := Option.map_eq_some_iff.mp hstore.symm
  exact ⟨p, hp, hst.symm⟩

theorem InMemory.mem (h : InMemory name db params version trees stores) (hp : params[key]? = some p)
    : (key, storeAt db (name key) p (trees key) version) ∈ stores.toList := by
  rw [KVStore.mem_toList, h key, hp]
  rfl

/-! ## Loading -/

theorem nameToKey_eq (hmounts : WellMounted name db params) (hp : params[key]? = some p)
    (ord : MapOrder) (hrs : rs.storesParams = params) : nameToKey name ord rs (name key) = .ok key
    := by
  have hmem : ∀ {entry}, entry ∈ ord.arrange rs.storesParams.toList ↔
      params[entry.1]? = some entry.2 := by
    intro entry
    rw [(ord.perm _).mem_iff, hrs, KVStore.mem_toList]
  rw [nameToKey]
  split
  · rename_i entry hfound
    have hname : name entry.1 = name key := by simpa using List.find?_some hfound
    rw [hmounts.name_inj (hmem.mp (List.mem_of_find?_eq_some hfound)) hp hname]
  · rename_i hnone
    have hall := List.find?_eq_none.mp hnone (key, p) (hmem.mpr hp)
    simp at hall

/-- What is on the disks: the latest version of every mounted store, and the commit info. -/
structure Saved (pk : Packages V T) (name : StoreKey → Bytes) (db : ℕ)
    (params : KVStore StoreKey StoreParams) (disks : Disks V) (id : CommitID)
    (trees : StoreKey → T) : Prop where
  latest : getLatestVersion pk (disks db) = .ok id.version
  loads {key : StoreKey} {p : StoreParams} (h : params[key]? = some p) :
    pk.loadVersion (partAt db (name key) p disks) id.version = .ok (trees key)
  start (h : id.version = 0) : id = {}
  info (h : id.version ≠ 0) : ∃ keys, Lists params keys ∧
    getCommitInfo pk (disks db) id.version =
      .ok ⟨id.version, infosOf pk name id.version trees keys⟩ ∧
    (CommitInfo.mk id.version (infosOf pk name id.version trees keys)).hash pk .ascending = id.hash

theorem loadCommitStoreFromParams_eq (hmounts : WellMounted name db params)
    (hsaved : Saved pk name db params disks id trees) (hp : params[key]? = some p)
    (hdb : rs.db = db) {id' : CommitID} (hid : id'.version = id.version) :
    loadCommitStoreFromParams pk name rs disks id' key p =
      .ok (storeAt db (name key) p (trees key) id.version) := by
  have hload := hsaved.loads hp
  rw [partAt] at hload
  simp only [loadCommitStoreFromParams, hmounts.iavl hp, loadIAVLStore, hdb, hid, hload]
  rfl

/-- The stores that loading puts into memory. -/
def loadedStores (name : StoreKey → Bytes) (db : ℕ) (params : KVStore StoreKey StoreParams)
    (version : ℕ) (trees : StoreKey → T) (stores : KVStore StoreKey (IavlStore T))
    (keys : List StoreKey) : KVStore StoreKey (IavlStore T) :=
  keys.foldl (fun stores key => stores.insert key
    (storeAt db (name key) (params[key]?.getD ⟨.multi, none⟩) (trees key) version)) stores

theorem Lists.inMemory (h : Lists params keys) :
    InMemory name db params version trees (loadedStores name db params version trees ∅ keys) := by
  intro key
  rw [loadedStores, KVStore.getElem?_foldl_insert_of_keys fun key =>
    storeAt db (name key) (params[key]?.getD ⟨.multi, none⟩) (trees key) version]
  cases hp : params[key]? with
  | none =>
    rw [if_neg]
    · simp
    · intro hmem
      obtain ⟨p, hp'⟩ := h.mem_iff.mp hmem
      rw [hp] at hp'
      cases hp'
  | some p =>
    rw [if_pos (h.mem_iff.mpr ⟨p, hp⟩)]
    rfl

theorem loadEmptyStores_eq (hmounts : WellMounted name db params)
    (hsaved : Saved pk name db params disks id trees) (hzero : id.version = 0) (hdb : rs.db = db)
    (hparams : rs.storesParams = params) (ord : MapOrder) :
    loadEmptyStores pk name ord rs disks = .ok (loadedStores name db params id.version trees rs.stores
      ((ord.arrange params.toList).map Prod.fst)) := by
  have hmem : ∀ entry ∈ ord.arrange params.toList, params[entry.1]? = some entry.2 := by
    intro entry hentry
    exact KVStore.mem_toList.mp ((ord.perm _).mem_iff.mp hentry)
  rw [loadEmptyStores, hparams, loadedStores]
  generalize ord.arrange params.toList = entries at hmem ⊢
  generalize rs.stores = stores
  induction entries generalizing stores with
  | nil => rfl
  | cons entry entries ih =>
    rw [List.forall_mem_cons] at hmem
    rw [List.foldlM_cons, List.map_cons, List.foldl_cons, hmem.1, ← ih hmem.2,
      loadCommitStoreFromParams_eq hmounts hsaved hmem.1 hdb hzero.symm]
    rfl

theorem loadStores_eq (hmounts : WellMounted name db params)
    (hsaved : Saved pk name db params disks id trees)
    (hkeys : ∀ key ∈ keys, ∃ p, params[key]? = some p) (hdb : rs.db = db)
    (hparams : rs.storesParams = params) (ords : Orders) (stores : KVStore StoreKey (IavlStore T)) :
    loadStores pk name ords rs disks (infosOf pk name id.version trees keys) stores =
      .ok (loadedStores name db params id.version trees stores keys) := by
  induction keys generalizing stores with
  | nil => rfl
  | cons key keys ih =>
    rw [List.forall_mem_cons] at hkeys
    obtain ⟨⟨p, hp⟩, hkeys⟩ := hkeys
    have hload : loadCommitStoreFromParams pk name rs disks ⟨id.version, pk.hash (trees key)⟩ key p =
        .ok (storeAt db (name key) p (trees key) id.version) :=
      loadCommitStoreFromParams_eq hmounts hsaved hp hdb rfl
    rw [infosOf, List.map_cons, loadStores, nameToKey_eq hmounts hp _ hparams, loadedStores,
      List.foldl_cons, hp]
    simp only [bind, Except.bind, hparams, hp, Option.getD_some, hload]
    exact ih hkeys _

/-- Loading the latest version puts the trees into memory that are on the disks. -/
theorem loadLatestVersion_eq_ok (hmounts : WellMounted name db params)
    (hsaved : Saved pk name db params disks id trees) (ords : Orders) :
    ∃ stores, loadLatestVersion pk name ords ⟨db, {}, params, ∅⟩ disks =
        .ok ⟨db, id, params, stores⟩ ∧ InMemory name db params id.version trees stores := by
  simp only [loadLatestVersion, hsaved.latest, bind, Except.bind, loadVersion]
  by_cases hzero : id.version = 0
  · have hlists : Lists params (((ords 0).arrange params.toList).map Prod.fst) :=
      ((ords 0).perm _).map _
    refine ⟨_, ?_, hlists.inMemory⟩
    rw [if_pos hzero, loadEmptyStores_eq hmounts hsaved hzero rfl rfl, hsaved.start hzero]
    rfl
  · obtain ⟨keys, hkeys, hinfo, hhash⟩ := hsaved.info hzero
    have hmemory : InMemory name db params id.version trees
        (loadedStores name db params id.version trees ∅ keys) := hkeys.inMemory
    have hload : loadStores pk name ords ⟨db, {}, params, ∅⟩ disks
        (infosOf pk name id.version trees keys) ∅ =
          .ok (loadedStores name db params id.version trees ∅ keys) :=
      loadStores_eq hmounts hsaved (fun key hkey => hkeys.mem_iff.mp hkey) rfl rfl ords ∅
    have hfound : ((ords 0).arrange params.toList).find? (fun entry =>
        (loadedStores name db params id.version trees ∅ keys)[entry.1]?.isNone) = none := by
      rw [List.find?_eq_none]
      intro entry hentry
      rw [hmemory, KVStore.mem_toList.mp (((ords 0).perm _).mem_iff.mp hentry)]
      simp
    refine ⟨_, ?_, hmemory⟩
    rw [if_neg hzero, hinfo]
    simp only [hload, hfound]
    have hid : (CommitInfo.mk id.version (infosOf pk name id.version trees keys)).commitID pk
        (ords 1) = id := by
      rw [CommitInfo.commitID, hmounts.hash_eq hkeys hkeys (ords 1) .ascending, hhash]
    rw [hid]
    rfl

/-! ## Committing -/

/-- The trees after a commit on top of a version. -/
def nextTrees (pk : Packages V T) (version : ℕ) (trees : StoreKey → T) : StoreKey → T :=
  fun key => pk.persist (version + 1) (trees key)

/-- What a commit on top of a version returns. -/
def nextID (pk : Packages V T) (name : StoreKey → Bytes) (params : KVStore StoreKey StoreParams)
    (version : ℕ) (trees : StoreKey → T) : CommitID :=
  ⟨version + 1, (CommitInfo.mk (version + 1) (infosOf pk name (version + 1)
    (nextTrees pk version trees) (params.toList.map Prod.fst))).hash pk .ascending⟩

theorem InMemory.pairwise (h : InMemory name db params version trees stores)
    (hmounts : WellMounted name db params) (hentries : entries.Perm stores.toList) :
    entries.Pairwise fun entry entry' =>
      entry.1 ≠ entry'.1 ∧ PlaceApart entry.2.place entry'.2.place := by
  have hnodup : entries.Nodup := hentries.nodup_iff.mpr (KVStore.toList_nodup stores)
  refine hnodup.pairwise_of_forall_ne fun entry hentry entry' hentry' hne => ?_
  have hmem := hentries.mem_iff.mp hentry
  have hmem' := hentries.mem_iff.mp hentry'
  have hkey : entry.1 ≠ entry'.1 := by
    intro hkey
    refine hne (Prod.ext hkey ?_)
    have hstore := KVStore.mem_toList.mp hmem
    rw [hkey, KVStore.mem_toList.mp hmem'] at hstore
    exact (Option.some.inj hstore).symm
  obtain ⟨p, hp, hst⟩ := h.exists_params hmem
  obtain ⟨p', hp', hst'⟩ := h.exists_params hmem'
  rw [hst, hst']
  exact ⟨hkey, hmounts.apart hp hp' hkey⟩

theorem not_covers_commitInfoKey (text : Bytes) (p : StoreParams) (db' version : ℕ) :
    ¬ Covers (location db text p) db' (commitInfoKey version) := by
  rintro ⟨-, rest, hrest⟩
  have hnumeral : ∀ {b : Byte}, b ∈ decimal version → b.val < 58 := digit_lt_of_mem_decimal
  rw [location] at hrest
  split at hrest
  · simp only [ownSpace, commitInfoKey, List.cons_append, List.cons.injEq, true_and] at hrest
    rw [← hrest] at hnumeral
    exact absurd (hnumeral List.mem_cons_self) (by decide)
  · simp only [namedSpace, commitInfoKey, List.cons_append, List.cons.injEq, true_and] at hrest
    rw [← hrest] at hnumeral
    exact absurd (hnumeral List.mem_cons_self) (by decide)

theorem not_covers_latestVersionKey (text : Bytes) (p : StoreParams) (db' : ℕ) :
    ¬ Covers (location db text p) db' latestVersionKey := by
  rintro ⟨-, rest, hrest⟩
  rw [location] at hrest
  split at hrest
  · simp [ownSpace, latestVersionKey] at hrest
  · simp [namedSpace, latestVersionKey] at hrest

theorem latestVersionKey_ne_commitInfoKey (version : ℕ) :
    latestVersionKey ≠ commitInfoKey version := by
  intro h
  simp only [latestVersionKey, commitInfoKey, List.cons.injEq, true_and] at h
  have hnumeral : (108 : Byte) ∈ decimal version := by
    rw [← h]
    exact List.mem_cons_self
  exact absurd (digit_lt_of_mem_decimal hnumeral) (by decide)

theorem withCommitInfo_of_covers {text : Bytes} {db' : ℕ} {key : Bytes}
    (h : Covers (location db text p) db' key) (cInfo : CommitInfo) :
    withCommitInfo pk db disks version cInfo db' key = disks db' key := by
  by_cases hdb : db' = db
  · subst hdb
    have hinfo : key ≠ commitInfoKey version := by
      rintro rfl
      exact not_covers_commitInfoKey text p db' version h
    have hlatest : key ≠ latestVersionKey := by
      rintro rfl
      exact not_covers_latestVersionKey text p db' h
    rw [withCommitInfo, Function.update_self, put, Function.update_of_ne hlatest, put,
      Function.update_of_ne hinfo]
  · rw [withCommitInfo, Function.update_of_ne hdb]

theorem partAt_withCommitInfo (text : Bytes) (p : StoreParams) (cInfo : CommitInfo) :
    partAt db text p (withCommitInfo pk db disks version cInfo) = partAt db text p disks :=
  funext fun key => withCommitInfo_of_covers ⟨rfl, List.prefix_append _ key⟩ cInfo

theorem getLatestVersion_withCommitInfo (cInfo : CommitInfo) :
    getLatestVersion pk (withCommitInfo pk db disks version cInfo db) = .ok version := by
  rw [withCommitInfo, Function.update_self, getLatestVersion, put, Function.update_self]
  simp only [pk.unmarshalInt64_marshal]
  rfl

theorem getCommitInfo_withCommitInfo (cInfo : CommitInfo) :
    getCommitInfo pk (withCommitInfo pk db disks version cInfo db) version = .ok cInfo := by
  rw [withCommitInfo, Function.update_self, getCommitInfo, put,
    Function.update_of_ne (latestVersionKey_ne_commitInfoKey version).symm, put, Function.update_self]
  simp only [pk.unmarshalCommitInfo_marshal]
  rfl

/-- What a commit has done. -/
structure Advanced (pk : Packages V T) (name : StoreKey → Bytes) (db : ℕ)
    (params : KVStore StoreKey StoreParams) (disks : Disks V) (version : ℕ) (trees : StoreKey → T)
    (stores' : KVStore StoreKey (IavlStore T)) (disks' : Disks V) : Prop where
  inMemory : InMemory name db params (version + 1) (nextTrees pk version trees) stores'
  parts {key : StoreKey} {p : StoreParams} (h : params[key]? = some p) :
    (storeAt db (name key) p (trees key) version).commitPart pk (partAt db (name key) p disks) =
      .ok (partAt db (name key) p disks')
  latest : getLatestVersion pk (disks' db) = .ok (version + 1)
  info : ∃ keys, Lists params keys ∧ getCommitInfo pk (disks' db) (version + 1) =
    .ok ⟨version + 1, infosOf pk name (version + 1) (nextTrees pk version trees) keys⟩

theorem commit_returns_iff {ords : Orders} :
    (∃ result, commit pk name ords rs disks = .ok result) ↔
      ∃ done, commitStores pk name ords rs disks = .ok done := by
  simp only [commit, bind_eq_ok, pure_eq_ok]
  constructor
  · rintro ⟨_, done, hdone, -⟩
    exact ⟨done, hdone⟩
  · rintro ⟨done, hdone⟩
    exact ⟨_, done, hdone, rfl⟩

theorem InMemory.lists (h : InMemory name db params version trees stores)
    (hentries : entries.Perm stores.toList) : Lists params (entries.map Prod.fst) := by
  refine (hentries.map Prod.fst).trans ?_
  rw [List.perm_ext_iff_of_nodup (KVStore.keys_nodup stores) (KVStore.keys_nodup params)]
  intro key
  rw [(Lists.mem_iff (.refl _) : key ∈ params.toList.map Prod.fst ↔ _), List.mem_map]
  constructor
  · rintro ⟨entry, hentry, rfl⟩
    obtain ⟨p, hp, -⟩ := h.exists_params hentry
    exact ⟨p, hp⟩
  · rintro ⟨p, hp⟩
    exact ⟨_, h.mem hp, rfl⟩

/-- A loop over all stores. -/
theorem Committed.advanced (hmemory : InMemory name db params version trees stores)
    (hentries : entries.Perm stores.toList) {done : Progress V T}
    (h : Committed pk name stores disks entries done) :
    done.infos = infosOf pk name (version + 1) (nextTrees pk version trees) (entries.map Prod.fst) ∧
      Advanced pk name db params disks version trees done.stores
        (withCommitInfo pk db done.disks (version + 1) ⟨version + 1, done.infos⟩) := by
  have hlists := hmemory.lists hentries
  have hinfos : done.infos =
      infosOf pk name (version + 1) (nextTrees pk version trees) (entries.map Prod.fst) := by
    rw [h.infos, infosOf, List.map_map]
    refine List.map_congr_left fun entry hentry => ?_
    obtain ⟨p, -, hst⟩ := hmemory.exists_params (hentries.mem_iff.mp hentry)
    rw [infoOf, hst]
    rfl
  refine ⟨hinfos, fun key => ?_, fun {key p} hp => ?_, getLatestVersion_withCommitInfo _, ?_⟩
  · rw [h.stores, hmemory key]
    cases hp : params[key]? with
    | none => simp
    | some p =>
      rw [if_pos (hlists.mem_iff.mpr ⟨p, hp⟩)]
      rfl
  · rw [partAt_withCommitInfo]
    exact h.parts (hentries.mem_iff.mpr (hmemory.mem hp))
  · exact ⟨_, hlists, by rw [getCommitInfo_withCommitInfo, hinfos]⟩

/-- A commit succeeds if every store can be committed on its own. -/
theorem commit_spec (pk : Packages V T) (disks : Disks V) (hmounts : WellMounted name db params)
    (hmemory : InMemory name db params id.version trees stores) (ords : Orders) :
    ((∃ result, commit pk name ords ⟨db, id, params, stores⟩ disks = .ok result) ↔
      ∀ key p, params[key]? = some p → ∃ part,
        (storeAt db (name key) p (trees key) id.version).commitPart pk (partAt db (name key) p disks) =
          .ok part) ∧
    ∀ result, commit pk name ords ⟨db, id, params, stores⟩ disks = .ok result →
      ∃ stores' disks', result = (nextID pk name params id.version trees,
          ⟨db, nextID pk name params id.version trees, params, stores'⟩, disks') ∧
        Advanced pk name db params disks id.version trees stores' disks' := by
  have hperm : (commitOrder ords ⟨db, id, params, stores⟩).Perm stores.toList := (ords 0).perm _
  have hentries : ∀ entry ∈ commitOrder ords ⟨db, id, params, stores⟩,
      stores[entry.1]? = some entry.2 :=
    fun entry hentry => KVStore.mem_toList.mp (hperm.mem_iff.mp hentry)
  obtain ⟨hreturns, hcommitted⟩ : ((∃ done, commitStores pk name ords ⟨db, id, params, stores⟩ disks =
        .ok done) ↔ ∀ entry ∈ commitOrder ords ⟨db, id, params, stores⟩, ∃ part,
          entry.2.commitPart pk (entry.2.part disks) = .ok part) ∧
      ∀ done, commitStores pk name ords ⟨db, id, params, stores⟩ disks = .ok done →
        Committed pk name stores disks (commitOrder ords ⟨db, id, params, stores⟩) done :=
    commitEntries_spec pk name disks hentries (hmemory.pairwise hmounts hperm)
  have hstore : ∀ {key p}, params[key]? = some p →
      (key, storeAt db (name key) p (trees key) id.version) ∈
        commitOrder ords ⟨db, id, params, stores⟩ :=
    fun hp => hperm.mem_iff.mpr (hmemory.mem hp)
  constructor
  · rw [commit_returns_iff, hreturns]
    constructor
    · exact fun hall key p hp => hall _ (hstore hp)
    · intro hall entry hentry
      obtain ⟨p, hp, hst⟩ := hmemory.exists_params (hperm.mem_iff.mp hentry)
      rw [hst]
      exact hall _ p hp
  · intro result hresult
    simp only [commit, bind_eq_ok, pure_eq_ok] at hresult
    obtain ⟨done, hdone, rfl⟩ := hresult
    obtain ⟨hinfos, hadvanced⟩ := (hcommitted done hdone).advanced hmemory hperm
    refine ⟨_, _, ?_, hadvanced⟩
    have hid : (CommitInfo.mk (id.version + 1) done.infos).commitID pk (ords 1) =
        nextID pk name params id.version trees := by
      rw [hinfos, nextID, CommitInfo.commitID,
        hmounts.hash_eq (hmemory.lists hperm) (.refl _) (ords 1) .ascending]
    rw [← hid]

/-- The versions that are kept: none after the latest one, and all recent ones. -/
structure History (pk : Packages V T) (part : Database Byte V) (version : ℕ) : Prop where
  above {later : ℕ} (h : version < later) : pk.stored part later = none
  recent {old : ℕ} (hpos : 0 < old) (hold : old ≤ version)
    (hrecent : version ≤ old + defaultIAVLNumRecent) : pk.stored part old ≠ none

/-- A commit on top of this version releases an old one, with the numbers that stores are loaded
with. -/
abbrev Releases (version : ℕ) : Prop :=
  ReleaseDue defaultIAVLNumRecent defaultIAVLStoreEvery version

theorem storeAt_commitPart_eq_ok {tree : T} (text : Bytes) (p : StoreParams)
    (hsave : pk.stored part (version + 1) = none ∨
      pk.stored part (version + 1) = some (pk.persist (version + 1) tree))
    (hrelease : Releases version → pk.stored part (version - defaultIAVLNumRecent) ≠ none) :
    ∃ part', (storeAt db text p tree version).commitPart pk part = .ok part' ∧
      ∀ w, pk.stored part' w =
        if Releases version ∧ w = version - defaultIAVLNumRecent then none
        else if w = version + 1 then some (pk.persist (version + 1) tree) else pk.stored part w :=
  (storeAt db text p tree version).commitPart_eq_ok hsave hrelease

theorem History.due (h : History pk part version) (hdue : Releases version) :
    pk.stored part (version - defaultIAVLNumRecent) ≠ none := by
  have hlt := hdue.1
  exact h.recent (by omega) (by omega) (by omega)

theorem loadVersion_congr {part' : Database Byte V}
    (h : pk.stored part' version = pk.stored part version) :
    pk.loadVersion part' version = pk.loadVersion part version := by
  rw [Packages.loadVersion, Packages.loadVersion, h]

/-- A store that has its recent versions can be committed, and then has them again. -/
theorem History.commit (h : History pk part version) (db : ℕ) (text : Bytes) (p : StoreParams)
    (tree : T) :
    ∃ part', (storeAt db text p tree version).commitPart pk part = .ok part' ∧
      History pk part' (version + 1) ∧
      pk.loadVersion part' (version + 1) = .ok (pk.persist (version + 1) tree) ∧
      pk.loadVersion part' version = pk.loadVersion part version ∧
      (Releases version → pk.stored part' (version - defaultIAVLNumRecent) = none) ∧
      pk.stored part' (version + 1) = some (pk.persist (version + 1) tree) := by
  obtain ⟨part', hpart', hstored⟩ := storeAt_commitPart_eq_ok text p
    (.inl (h.above (Nat.lt_succ_self version))) h.due
  have hnew : pk.stored part' (version + 1) = some (pk.persist (version + 1) tree) := by
    rw [hstored, if_neg (by omega), if_pos rfl]
  refine ⟨part', hpart', ⟨?_, ?_⟩, ?_, ?_, ?_, hnew⟩
  · intro later hlater
    rw [hstored, if_neg (by omega), if_neg (by omega)]
    exact h.above (by omega)
  · intro old hpos hold hrecent
    rw [hstored]
    split_ifs with hreleased hlast
    · have hlt := hreleased.1.1
      omega
    · exact Option.some_ne_none _
    · exact h.recent hpos (by omega) (by omega)
  · rw [Packages.loadVersion, if_neg (Nat.succ_ne_zero version), hnew]
  · by_cases hzero : version = 0
    · rw [Packages.loadVersion, Packages.loadVersion, if_pos hzero, if_pos hzero]
    · refine loadVersion_congr ?_
      rw [hstored, if_neg, if_neg (by omega)]
      have hpos : 0 < defaultIAVLNumRecent := by decide
      omega
  · intro hdue
    rw [hstored, if_pos ⟨hdue, rfl⟩]

/-- Everything on the disks is as the last commit has left it. -/
structure Settled (pk : Packages V T) (name : StoreKey → Bytes) (db : ℕ)
    (params : KVStore StoreKey StoreParams) (disks : Disks V) (id : CommitID)
    (trees : StoreKey → T) : Prop extends Saved pk name db params disks id trees where
  history {key : StoreKey} {p : StoreParams} (h : params[key]? = some p) :
    History pk (partAt db (name key) p disks) id.version

theorem settled_empty (pk : Packages V T) (name : StoreKey → Bytes) (db : ℕ)
    (params : KVStore StoreKey StoreParams) :
    Settled pk name db params (fun _ _ => none) {} fun _ => pk.empty where
  latest := rfl
  loads _ := rfl
  start _ := rfl
  info h := absurd rfl h
  history _ := ⟨fun _ => pk.stored_none _, fun hpos hold _ => absurd (hpos.trans_le hold) (Nat.lt_irrefl 0)⟩

/-- Commits succeed on settled disks, and settle them again. -/
theorem Settled.commit (hmounts : WellMounted name db params) {saved : StoreKey → T}
    (h : Settled pk name db params disks id saved)
    (hmemory : InMemory name db params id.version trees stores) (ords : Orders) :
    ∃ stores' disks', commit pk name ords ⟨db, id, params, stores⟩ disks =
        .ok (nextID pk name params id.version trees,
          ⟨db, nextID pk name params id.version trees, params, stores'⟩, disks') ∧
      InMemory name db params (id.version + 1) (nextTrees pk id.version trees) stores' ∧
      Settled pk name db params disks' (nextID pk name params id.version trees)
        (nextTrees pk id.version trees) := by
  obtain ⟨hreturns, hspec⟩ := commit_spec pk disks hmounts hmemory ords
  obtain ⟨result, hresult⟩ := hreturns.mpr fun key p hp => by
    obtain ⟨part', hpart', -⟩ := (h.history hp).commit db (name key) p (trees key)
    exact ⟨part', hpart'⟩
  obtain ⟨stores', disks', rfl, hadvanced⟩ := hspec result hresult
  have hpart : ∀ {key p}, params[key]? = some p →
      History pk (partAt db (name key) p disks') (id.version + 1) ∧
        pk.loadVersion (partAt db (name key) p disks') (id.version + 1) =
          .ok (nextTrees pk id.version trees key) := by
    intro key p hp
    obtain ⟨part', hpart', hhistory, hload, -⟩ := (h.history hp).commit db (name key) p (trees key)
    rw [hadvanced.parts hp] at hpart'
    rw [Except.ok.inj hpart']
    exact ⟨hhistory, hload⟩
  refine ⟨stores', disks', hresult, hadvanced.inMemory, ?_⟩
  refine ⟨⟨hadvanced.latest, fun hp => (hpart hp).2, nofun, fun _ => ?_⟩, fun hp => (hpart hp).1⟩
  obtain ⟨keys, hkeys, hinfo⟩ := hadvanced.info
  exact ⟨keys, hkeys, hinfo, hmounts.hash_eq hkeys (.refl _) _ _⟩

/-! ## Writing -/

/-- The trees after some writes. -/
def afterWrites (pk : Packages V T) (writes : List (StoreKey × Write)) (trees : StoreKey → T) :
    StoreKey → T :=
  writes.foldl (fun trees kw => Function.update trees kw.1 (kw.2.apply pk (trees kw.1))) trees

theorem writeStore_eq_ok (pk : Packages V T)
    (hmemory : InMemory name db params version trees stores) (hkey : ∃ p, params[key]? = some p)
    (w : Write) (id : CommitID) :
    ∃ stores', writeStore pk ⟨db, id, params, stores⟩ key w = .ok ⟨db, id, params, stores'⟩ ∧
      InMemory name db params version
        (Function.update trees key (w.apply pk (trees key))) stores' := by
  obtain ⟨p, hp⟩ := hkey
  have hstore : stores[key]? = some (storeAt db (name key) p (trees key) version) := by
    rw [hmemory key, hp]
    rfl
  simp only [writeStore, hstore]
  refine ⟨_, rfl, fun key' => ?_⟩
  rw [KVStore.getElem?_insert]
  by_cases hkey' : key = key'
  · subst hkey'
    rw [if_pos rfl, hp, Option.map_some, Function.update_self]
    rfl
  · rw [if_neg hkey', hmemory key', Function.update_of_ne (Ne.symm hkey')]

theorem writes_eq_ok (pk : Packages V T) (hmemory : InMemory name db params version trees stores)
    {writes : List (StoreKey × Write)} (hkeys : ∀ kw ∈ writes, ∃ p, params[kw.1]? = some p)
    (id : CommitID) :
    ∃ stores', writes.foldlM (fun rs kw => writeStore pk rs kw.1 kw.2) ⟨db, id, params, stores⟩ =
        .ok ⟨db, id, params, stores'⟩ ∧
      InMemory name db params version (afterWrites pk writes trees) stores' := by
  induction writes generalizing trees stores with
  | nil => exact ⟨stores, rfl, hmemory⟩
  | cons kw writes ih =>
    rw [List.forall_mem_cons] at hkeys
    obtain ⟨stores', hwrite, hmemory'⟩ := writeStore_eq_ok pk hmemory hkeys.1 kw.2 id
    obtain ⟨stores'', hwrites, hmemory''⟩ := ih hmemory' hkeys.2
    refine ⟨stores'', ?_, hmemory''⟩
    rw [List.foldlM_cons, hwrite]
    exact hwrites

end Mounted

/-! ## Mounting -/

/-- No two mounted stores have the same name or a database key in common. -/
def Separate (name : StoreKey → Bytes) (db : ℕ) (mounts : List Mount) : Prop :=
  mounts.Pairwise fun mount mount' => name mount.key ≠ name mount'.key ∧
    PlaceApart (location db (name mount.key) mount.params) (location db (name mount'.key) mount'.params)

instance (db : ℕ) (mounts : List Mount) : Decidable (Separate name db mounts) :=
  inferInstanceAs (Decidable (mounts.Pairwise _))

theorem mountStoreWithDB_eq_ok {rs rs' : RootMultiStore T} {key : StoreKey} {p : StoreParams} :
    mountStoreWithDB rs key p = .ok rs' ↔ rs.storesParams[key]? = none ∧
      { rs with storesParams := rs.storesParams.insert key p } = rs' := by
  rw [mountStoreWithDB]
  split
  · rename_i hsome
    simp [hsome]
  · rename_i hnone
    simp [hnone]

theorem mounted_eq_ok {db : ℕ} {mounts : List Mount} {rs : RootMultiStore T}
    (h : mounted db mounts = .ok rs) :
    ∃ params, rs = ⟨db, {}, params, ∅⟩ ∧
      ∀ key p, params[key]? = some p ↔ ⟨key, p⟩ ∈ mounts := by
  have hinv := foldlM_invariant_rest (fun rest (rs : RootMultiStore T) =>
    ∃ params, rs = ⟨db, {}, params, ∅⟩ ∧
      ∀ key p, params[key]? = some p ∨ ⟨key, p⟩ ∈ rest ↔ ⟨key, p⟩ ∈ mounts)
    ⟨∅, rfl, fun key p => by simp⟩ ?_ h
  · obtain ⟨params, rfl, hparams⟩ := hinv
    exact ⟨params, rfl, fun key p => by simpa using hparams key p⟩
  · rintro rs mount rest rs' ⟨params, rfl, hparams⟩ hmount
    obtain ⟨hnone, rfl⟩ := mountStoreWithDB_eq_ok.mp hmount
    refine ⟨_, rfl, fun key p => ?_⟩
    rw [← hparams key p, KVStore.getElem?_insert, List.mem_cons]
    by_cases hkey : mount.key = key
    · subst hkey
      have hmount : (⟨mount.key, p⟩ : Mount) = mount ↔ mount.params = p := by
        cases mount
        simp [eq_comm]
      simp [hnone, hmount]
    · have hmount : (⟨key, p⟩ : Mount) ≠ mount := by
        rintro rfl
        exact hkey rfl
      simp [hkey, hmount]

theorem Separate.wellMounted {db : ℕ} {mounts : List Mount} (h : Separate name db mounts)
    (hiavl : ∀ mount ∈ mounts, mount.params.typ = .iavl) {params : KVStore StoreKey StoreParams}
    (hparams : ∀ key p, params[key]? = some p ↔ ⟨key, p⟩ ∈ mounts) :
    WellMounted name db params := by
  have hpair : ∀ {mount mount'}, mount ∈ mounts → mount' ∈ mounts → mount ≠ mount' →
      name mount.key ≠ name mount'.key ∧ PlaceApart (location db (name mount.key) mount.params)
        (location db (name mount'.key) mount'.params) := by
    intro mount mount' hmount hmount' hne
    have hsymm : Std.Symm fun mount mount' : Mount => name mount.key ≠ name mount'.key ∧
        PlaceApart (location db (name mount.key) mount.params)
          (location db (name mount'.key) mount'.params) :=
      ⟨fun _ _ hpair => ⟨hpair.1.symm, hpair.2.symm⟩⟩
    exact List.Pairwise.forall h hmount hmount' hne
  refine ⟨?_, ?_, ?_⟩
  · intro key p hp
    exact hiavl _ ((hparams key p).mp hp)
  · intro key key' p p' hp hp' hname
    by_contra hne
    refine (hpair ((hparams key p).mp hp) ((hparams key' p').mp hp') ?_).1 hname
    rintro ⟨⟩
    exact hne rfl
  · intro key key' p p' hp hp' hne
    refine (hpair ((hparams key p).mp hp) ((hparams key' p').mp hp') ?_).2
    rintro ⟨⟩
    exact hne rfl

end Tepleton.Store.Multi
