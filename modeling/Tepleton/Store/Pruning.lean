import Tepleton.Store.Commit

/-!
# Which versions an IAVL store keeps

Every commit saves one version and releases at most one, the first that has become too old, unless it
is a waypoint.  After `n` commits there are exactly the last `numRecent + 1` versions and the waypoints
(`Kept`), so that the version to be released is always there and never the latest.
-/

namespace Tepleton.Store.Multi

open Lib

variable {V T : Type}

/-- `newIAVLStore` on an empty tree. -/
def newIAVLStore (pk : Packages V T) (numRecent storeEvery : ℕ) : IavlStore T :=
  ⟨0, [], pk.empty, 0, numRecent, storeEvery⟩

/-- A call to an IAVL store that changes it. -/
inductive StoreCall
  | write (w : Write)
  | commit
  deriving DecidableEq, Repr

/-- A commit. -/
def StoreCall.isCommit : StoreCall → Bool
  | .write _ => false
  | .commit => true

/-- One call, with the database of the tree. -/
def callStore (pk : Packages V T) :
    IavlStore T × Database Byte V → StoreCall → Except Failure (IavlStore T × Database Byte V)
  | (st, db), .write w => .ok ({ st with tree := w.apply pk st.tree }, db)
  | (st, db), .commit => do
      let db ← st.commitPart pk db
      return (st.next pk, db)

/-- The versions that should be there after `n` commits. -/
def Kept (numRecent storeEvery n version : ℕ) : Prop :=
  0 < version ∧ version ≤ n ∧ (n ≤ version + numRecent ∨ 0 < storeEvery ∧ storeEvery ∣ version)

/-- What a release asks of the database: the version is there, and it is older than another one. -/
def Releasable (pk : Packages V T) (db : Database Byte V) (version : ℕ) : Prop :=
  pk.stored db version ≠ none ∧ ∃ latest, version < latest ∧ pk.stored db latest ≠ none

/-- A store after `n` commits. -/
structure Pruned (pk : Packages V T) (numRecent storeEvery n : ℕ) (st : IavlStore T)
    (db : Database Byte V) : Prop where
  numRecent_eq : st.numRecent = numRecent
  storeEvery_eq : st.storeEvery = storeEvery
  version_eq : st.version = n
  stored : ∀ version, pk.stored db version ≠ none ↔ Kept numRecent storeEvery n version

section Step

variable {pk : Packages V T} {numRecent storeEvery n : ℕ} {st : IavlStore T} {db : Database Byte V}

theorem pruned_newIAVLStore (pk : Packages V T) (numRecent storeEvery : ℕ) :
    Pruned pk numRecent storeEvery 0 (newIAVLStore pk numRecent storeEvery) fun _ => none where
  numRecent_eq := rfl
  storeEvery_eq := rfl
  version_eq := rfl
  stored version := by
    unfold Kept
    rw [pk.stored_none]
    simp only [ne_eq, not_true_eq_false, false_iff]
    omega

theorem kept_of_releaseDue (h : ReleaseDue numRecent storeEvery n) :
    Kept numRecent storeEvery n (n - numRecent) := by
  unfold ReleaseDue at h
  unfold Kept
  omega

theorem kept_succ_iff (numRecent storeEvery n version : ℕ) :
    Kept numRecent storeEvery (n + 1) version ↔
      ¬ (ReleaseDue numRecent storeEvery n ∧ version = n - numRecent) ∧
        (version = n + 1 ∨ Kept numRecent storeEvery n version) := by
  have hdvd : storeEvery ∣ version ↔ version % storeEvery = 0 := Nat.dvd_iff_mod_eq_zero
  unfold Kept ReleaseDue
  by_cases hversion : version = n - numRecent
  · rw [hdvd, hversion]
    omega
  · rw [hdvd]
    omega

theorem Pruned.unsaved (h : Pruned pk numRecent storeEvery n st db) :
    pk.stored db (st.version + 1) = none := by
  by_contra hstored
  have hkept := (h.stored _).mp hstored
  rw [h.version_eq] at hkept
  unfold Kept at hkept
  omega

theorem Pruned.commit (h : Pruned pk numRecent storeEvery n st db) :
    ∃ db', st.commitPart pk db = .ok db' ∧
      Pruned pk numRecent storeEvery (n + 1) (st.next pk) db' := by
  have hrelease : ReleaseDue st.numRecent st.storeEvery st.version →
      pk.stored db (st.version - st.numRecent) ≠ none := by
    rw [h.numRecent_eq, h.storeEvery_eq, h.version_eq, h.stored]
    exact kept_of_releaseDue
  obtain ⟨db', hcommit, hstored⟩ := st.commitPart_eq_ok (.inl h.unsaved) hrelease
  refine ⟨db', hcommit, h.numRecent_eq, h.storeEvery_eq, congrArg (· + 1) h.version_eq, fun version => ?_⟩
  rw [hstored, h.numRecent_eq, h.storeEvery_eq, h.version_eq, kept_succ_iff, ← h.stored]
  split_ifs with hdue hlast
  · exact iff_of_false (not_not.mpr rfl) fun hkept => hkept.1 hdue
  · exact iff_of_true (Option.some_ne_none _) ⟨hdue, .inl hlast⟩
  · exact ⟨fun hold => ⟨hdue, .inr hold⟩, fun hkept => hkept.2.resolve_left hlast⟩

theorem Pruned.releasable (h : Pruned pk numRecent storeEvery n st db)
    (hdue : ReleaseDue st.numRecent st.storeEvery st.version) {saved : Database Byte V}
    (hsaved : pk.saveVersion db (st.version + 1) st.tree = .ok saved) :
    Releasable pk saved (st.version - st.numRecent) := by
  obtain ⟨saved', hsaved', hstored⟩ :=
    @Packages.saveVersion_eq_ok _ _ pk db (st.version + 1) st.tree (.inl h.unsaved)
  cases hsaved.symm.trans hsaved'
  have hold : st.version - st.numRecent < st.version + 1 := by omega
  refine ⟨?_, st.version + 1, hold, ?_⟩
  · rw [hstored, Function.update_of_ne hold.ne, h.stored, h.numRecent_eq, h.version_eq]
    rw [h.numRecent_eq, h.storeEvery_eq, h.version_eq] at hdue
    exact kept_of_releaseDue hdue
  · rw [hstored, Function.update_self]
    exact Option.some_ne_none _

/-- A whole run: writes do not touch the versions. -/
theorem Pruned.run (h : Pruned pk numRecent storeEvery n st db) (calls : List StoreCall) :
    ∃ st' db', calls.foldlM (callStore pk) (st, db) = .ok (st', db') ∧
      Pruned pk numRecent storeEvery (n + calls.countP StoreCall.isCommit) st' db' := by
  induction calls generalizing n st db with
  | nil => exact ⟨st, db, rfl, h⟩
  | cons call calls ih =>
    cases call with
    | write w =>
      have hwritten : Pruned pk numRecent storeEvery n
          { st with tree := w.apply pk st.tree } db := { h with }
      obtain ⟨st', db', hrun, hpruned⟩ := ih hwritten
      refine ⟨st', db', foldlM_cons_of_ok rfl hrun, ?_⟩
      rwa [List.countP_cons_of_neg (by simp [StoreCall.isCommit])]
    | commit =>
      obtain ⟨committed, hcommit, hnext⟩ := h.commit
      obtain ⟨st', db', hrun, hpruned⟩ := ih hnext
      have hcall : callStore pk (st, db) .commit = .ok (st.next pk, committed) := by
        rw [callStore, hcommit]
        rfl
      refine ⟨st', db', foldlM_cons_of_ok hcall hrun, ?_⟩
      rwa [List.countP_cons_of_pos (by rfl), add_comm _ 1, ← add_assoc]

end Step

/-- Whatever is written between them, after some commits on a new store exactly the promised versions
are there, no commit has failed, and the next one only releases a version that is there and older than
the one it has just saved. -/
theorem pruning_keeps_promised (pk : Packages V T) (numRecent storeEvery : ℕ)
    (calls : List StoreCall) :
    ∃ st db, calls.foldlM (callStore pk)
        (newIAVLStore pk numRecent storeEvery, fun _ => none) = .ok (st, db) ∧
      (∀ version, pk.stored db version ≠ none ↔
        Kept numRecent storeEvery (calls.countP StoreCall.isCommit) version) ∧
      ∀ saved, pk.saveVersion db (st.version + 1) st.tree = .ok saved →
        ReleaseDue st.numRecent st.storeEvery st.version →
        Releasable pk saved (st.version - st.numRecent) := by
  obtain ⟨st, db, hrun, hpruned⟩ := (pruned_newIAVLStore pk numRecent storeEvery).run calls
  rw [zero_add] at hpruned
  exact ⟨st, db, hrun, hpruned.stored, fun saved hsaved hdue => hpruned.releasable hdue hsaved⟩

end Tepleton.Store.Multi
