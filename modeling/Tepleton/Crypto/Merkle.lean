import Tepleton.Lib.MerkleTree
import Tepleton.Types.Fault

/-!
# Simple Merkle trees: `crypto/merkle`

The root of a list of hashable items is computed by recursion (`simple_tree.go`), proofs are collected
by building linked nodes and walking up their parents (`simple_proof.go`), and a verifier climbs with
the aunts of a proof taken from the end of the list.  Nodes live on a heap and pointers are positions
in it.

* `simpleProofsFromHashers_eq_ok`: the aunts on the heap are those of the tree of the items.
* `merkle_proofs_complete`, `merkle_proofs_sound`: what is proved verifies, and nothing else does.
-/

namespace Tepleton.Crypto.Merkle

open Lib

/-! ## Hashes -/

/-- `tmhash` and `amino.EncodeByteSlice`, which are in other packages. -/
structure Hashing where
  sum : Bytes → Bytes
  encodeByteSlice : Bytes → Bytes

/-- A Go `[]byte` that may be nil. -/
abbrev Slice := Option Bytes

/-- The bytes of a slice: nil has none. -/
def Slice.bytes (bz : Slice) : Bytes := bz.getD []

/-- `bytes.Equal`. -/
def bytesEqual (a b : Slice) : Bool := a.bytes = b.bytes

variable (tm : Hashing) {α : Type}

/-- The hash of two byte strings, each behind its length. -/
def Hashing.pair (left right : Bytes) : Bytes :=
  tm.sum (tm.encodeByteSlice left ++ tm.encodeByteSlice right)

/-- `SimpleHashFromTwoHashes`.  Writing to a hash does not fail. -/
def simpleHashFromTwoHashes (left right : Slice) : Slice := some (tm.pair left.bytes right.bytes)

/-! ## Roots: `simple_tree.go` -/

def simpleHashFromHashes : List Slice → Slice
  | [] => none
  | [hash] => hash
  | hash :: hash' :: rest =>
    let hashes := hash :: hash' :: rest
    let left := simpleHashFromHashes (hashes.take ((hashes.length + 1) / 2))
    let right := simpleHashFromHashes (hashes.drop ((hashes.length + 1) / 2))
    simpleHashFromTwoHashes tm left right
  termination_by hashes => hashes.length
  decreasing_by
    all_goals simp only [List.length_take, List.length_drop, List.length_cons]
    all_goals omega

/-- `SimpleHashFromHashers`.  A `Hasher` is a value of some type with a function that hashes it. -/
def simpleHashFromHashers (hash : α → Slice) (items : List α) : Slice :=
  simpleHashFromHashes tm (items.map hash)

/-! ## Proofs: `simple_proof.go` -/

structure SimpleProof where
  aunts : List Slice
  deriving DecidableEq, Repr

structure SimpleProofNode where
  hash : Slice
  parent : Option ℕ
  left : Option ℕ
  right : Option ℕ
  deriving DecidableEq, Repr

/-- Allocated nodes.  The pointer to a node is its position. -/
abbrev Heap := List SimpleProofNode

/-- The node a pointer points to. -/
def Heap.deref (heap : Heap) (spn : Option ℕ) : Outcome SimpleProofNode :=
  match spn.bind (heap[·]?) with
  | none => .error (.panic .nilDereference)
  | some node => .ok node

/-- `trailsFromHashers`: the heap, the trails and the root. -/
def trailsFromHashers (hash : α → Slice) : List α → Heap → Outcome (Heap × List ℕ × Option ℕ)
  | [], heap => .ok (heap, [], none)
  | [item], heap =>
    .ok (heap ++ [⟨hash item, none, none, none⟩], [heap.length], some heap.length)
  | item :: item' :: rest, heap => do
      let items := item :: item' :: rest
      let (heap, lefts, leftRoot) ← trailsFromHashers hash (items.take ((items.length + 1) / 2)) heap
      let (heap, rights, rightRoot) ←
        trailsFromHashers hash (items.drop ((items.length + 1) / 2)) heap
      let left ← heap.deref leftRoot
      let right ← heap.deref rightRoot
      let root := heap.length
      let heap := heap ++ [⟨simpleHashFromTwoHashes tm left.hash right.hash, none, none, none⟩]
      let heap := heap.modify (leftRoot.getD root) fun node =>
        { node with parent := some root, right := rightRoot }
      let heap := heap.modify (rightRoot.getD root) fun node =>
        { node with parent := some root, left := leftRoot }
      return (heap, lefts ++ rights, some root)
  termination_by items => items.length
  decreasing_by
    all_goals simp only [List.length_take, List.length_drop, List.length_cons]
    all_goals omega

/-- `FlattenAunts`, for at most `fuel` rounds: the nodes left to visit are above the one visited. -/
def flattenAunts (heap : Heap) : ℕ → Option ℕ → List Slice → Outcome (List Slice)
  | 0, _, innerHashes => .ok innerHashes
  | _ + 1, none, innerHashes => .ok innerHashes
  | fuel + 1, some spn, innerHashes => do
      let node ← heap.deref (some spn)
      if node.left ≠ none then
        let left ← heap.deref node.left
        flattenAunts heap fuel node.parent (innerHashes ++ [left.hash])
      else if node.right ≠ none then
        let right ← heap.deref node.right
        flattenAunts heap fuel node.parent (innerHashes ++ [right.hash])
      else return innerHashes

def simpleProofsFromHashers (hash : α → Slice) (items : List α) :
    Outcome (Slice × List SimpleProof) := do
  let (heap, trails, rootSPN) ← trailsFromHashers tm hash items []
  let root ← heap.deref rootSPN
  let proofs ← trails.mapM fun trail => do
    let aunts ← flattenAunts heap heap.length (some trail) []
    return (⟨aunts⟩ : SimpleProof)
  return (root.hash, proofs)

/-- `computeHashFromAunts` with the aunts in the order in which it takes them, from the last one. -/
def computeHashFromAuntsRev (index total : ℤ) (leafHash : Slice) : List Slice → Slice
  | [] =>
    if total ≤ index ∨ index < 0 ∨ total ≤ 0 then none
    else if total = 1 then leafHash else none
  | last :: innerHashes =>
    if total ≤ index ∨ index < 0 ∨ total ≤ 0 then none
    else if total = 1 then none
    else
      let numLeft := (total + 1) / 2
      if index < numLeft then
        match computeHashFromAuntsRev index numLeft leafHash innerHashes with
        | none => none
        | some leftHash => simpleHashFromTwoHashes tm (some leftHash) last
      else
        match computeHashFromAuntsRev (index - numLeft) (total - numLeft) leafHash innerHashes with
        | none => none
        | some rightHash => simpleHashFromTwoHashes tm last (some rightHash)

def computeHashFromAunts (index total : ℤ) (leafHash : Slice) (innerHashes : List Slice) : Slice :=
  computeHashFromAuntsRev tm index total leafHash innerHashes.reverse

def SimpleProof.verify (sp : SimpleProof) (index total : ℤ) (leafHash rootHash : Slice) : Bool :=
  let computedHash := computeHashFromAunts tm index total leafHash sp.aunts
  computedHash ≠ none ∧ bytesEqual computedHash rootHash

/-! ## Maps: `simple_map.go` -/

/-- `KVPair`: a key and the hash of a value. -/
structure KVPair where
  key : Bytes
  value : Slice
  deriving DecidableEq, Repr

def KVPair.hash (kv : KVPair) : Slice := some (tm.pair kv.key kv.value.bytes)

/-- The order that `KVPairs` are sorted by: keys, and values under one key. -/
def KVPair.le (kv kv' : KVPair) : Bool :=
  toLex (kv.key, kv.value.bytes) ≤ toLex (kv'.key, kv'.value.bytes)

structure SimpleMap where
  kvs : List KVPair
  sorted : Bool

def newSimpleMap : SimpleMap := ⟨[], false⟩

def SimpleMap.set (hash : α → Slice) (sm : SimpleMap) (entry : Bytes × α) : SimpleMap :=
  ⟨sm.kvs ++ [⟨entry.1, hash entry.2⟩], false⟩

def SimpleMap.sort (sm : SimpleMap) : SimpleMap :=
  if sm.sorted then sm else ⟨sm.kvs.mergeSort KVPair.le, true⟩

def SimpleMap.hash (sm : SimpleMap) : Slice := simpleHashFromHashers tm (KVPair.hash tm) sm.sort.kvs

/-- `SimpleHashFromMap`, of the entries of a map in the order in which `range` gives them. -/
def simpleHashFromMap (hash : α → Slice) (entries : List (Bytes × α)) : Slice :=
  (entries.foldl (SimpleMap.set hash) newSimpleMap).hash tm

/-- `SimpleProofsFromMap`, of the entries of a map in the order in which `range` gives them.  There are
as many proofs as pairs. -/
def simpleProofsFromMap (hash : α → Slice) (entries : List (Bytes × α)) :
    Outcome (Slice × KVStore Bytes SimpleProof × List Bytes) := do
  let kvs := (entries.foldl (SimpleMap.set hash) newSimpleMap).sort.kvs
  let (rootHash, proofList) ← simpleProofsFromHashers tm (KVPair.hash tm) kvs
  let keys := kvs.map KVPair.key
  let proofs := (keys.zip proofList).foldl (fun proofs entry => proofs.insert entry.1 entry.2) ∅
  return (rootHash, proofs, keys)

/-! ## The root -/

variable {tm} {hash : α → Slice}

/-- The hashes of the items are the leaves of a tree. -/
def Fits (hash : α → Slice) (items : List α) (t : MerkleTree Bytes) : Prop :=
  t.Halved ∧ items.map hash = t.leaves.map some

variable {items : List α} {t : MerkleTree Bytes} {m : KVStore Bytes α} {entries : List (Bytes × α)}

theorem exists_fits (hne : items ≠ []) (hhash : ∀ item ∈ items, hash item ≠ none) :
    ∃ t, Fits hash items t := by
  obtain ⟨t, ht, hleaves⟩ := MerkleTree.exists_halved (items.map fun item => (hash item).bytes)
    (by simpa using hne)
  refine ⟨t, ht, ?_⟩
  rw [hleaves, List.map_map]
  refine List.map_congr_left fun item hitem => ?_
  obtain ⟨bz, hbz⟩ := Option.ne_none_iff_exists'.mp (hhash item hitem)
  simp [hbz, Slice.bytes]

theorem Fits.length (h : Fits hash items t) : items.length = t.size := by
  rw [← List.length_map hash, h.2, List.length_map]
  rfl

theorem Fits.node {left right : MerkleTree Bytes} (h : Fits hash items (.node left right)) :
    (∃ item item' rest, items = item :: item' :: rest) ∧
      Fits hash (items.take ((items.length + 1) / 2)) left ∧
      Fits hash (items.drop ((items.length + 1) / 2)) right := by
  obtain ⟨hleft, hright⟩ := h.1.take_drop h.2
  refine ⟨?_, ⟨h.1.2.1, hleft⟩, h.1.2.2, hright⟩
  have hlength := h.length
  rw [MerkleTree.size_node] at hlength
  have hleftPos := left.size_pos
  have hrightPos := right.size_pos
  match items with
  | [] =>
    simp only [List.length_nil] at hlength
    omega
  | [_] =>
    simp only [List.length_singleton] at hlength
    omega
  | item :: item' :: rest => exact ⟨item, item', rest, rfl⟩

theorem Fits.leaf {bz : Bytes} (h : Fits hash items (.leaf bz)) :
    ∃ item, items = [item] ∧ hash item = some bz := by
  obtain ⟨-, hmap⟩ := h
  simp only [MerkleTree.leaves, List.map_cons, List.map_nil, List.map_eq_singleton_iff] at hmap
  exact hmap

theorem simpleHashFromHashes_eq {hashes : List Slice} (h : Fits id hashes t) : simpleHashFromHashes
    tm hashes = some (t.root tm.pair) := by
  induction t generalizing hashes with
  | leaf bz =>
    obtain ⟨hash, rfl, rfl⟩ := h.leaf
    rw [simpleHashFromHashes]
    rfl
  | node left right ihleft ihright =>
    obtain ⟨⟨hash, hash', rest, rfl⟩, hleft, hright⟩ := h.node
    rw [simpleHashFromHashes, ihleft hleft, ihright hright]
    rfl

theorem simpleHashFromHashers_eq (h : Fits hash items t) :
    simpleHashFromHashers tm hash items = some (t.root tm.pair) := by
  refine simpleHashFromHashes_eq ⟨h.1, ?_⟩
  rw [List.map_id, h.2]

/-! ## Walking up the heap -/

namespace Heap

/-- The hash that `FlattenAunts` takes at a node. -/
def sibling (heap : Heap) (node : SimpleProofNode) : Option Slice :=
  ((node.left <|> node.right).bind (heap[·]?)).map SimpleProofNode.hash

/-- From node `spn` the parents lead to node `top`, and `aunts` are met on the way. -/
def Climbs (heap : Heap) (spn top : ℕ) : List Slice → Prop
  | [] => spn = top
  | aunt :: aunts => ∃ node parent, heap[spn]? = some node ∧ heap.sibling node = some aunt ∧
      node.parent = some parent ∧ spn < parent ∧ Climbs heap parent top aunts

variable {heap heap' : Heap} {spn top : ℕ} {aunts : List Slice}

theorem Climbs.length_le (h : heap.Climbs spn top aunts) : spn + aunts.length ≤ top := by
  induction aunts generalizing spn with
  | nil =>
    obtain rfl := h
    exact le_rfl
  | cons aunt aunts ih =>
    obtain ⟨node, parent, -, -, -, hlt, hrest⟩ := h
    have hle := ih hrest
    rw [List.length_cons]
    omega

theorem Climbs.mono (hnodes : ∀ i, spn ≤ i → i < top → heap'[i]? = heap[i]?)
    (hhash : ∀ (i : ℕ) (node : SimpleProofNode), heap[i]? = some node →
      ∃ node', heap'[i]? = some node' ∧ node'.hash = node.hash)
    (h : heap.Climbs spn top aunts) : heap'.Climbs spn top aunts := by
  induction aunts generalizing spn with
  | nil => exact h
  | cons aunt aunts ih =>
    obtain ⟨node, parent, hnode, hsibling, hparent, hlt, hrest⟩ := h
    have hle := hrest.length_le
    refine ⟨node, parent, ?_, ?_, hparent, hlt, ih (fun i hi => hnodes i (by omega)) hrest⟩
    · rw [hnodes spn le_rfl (by omega), hnode]
    · rw [sibling, Option.map_eq_some_iff] at hsibling ⊢
      obtain ⟨aunt', haunt', rfl⟩ := hsibling
      obtain ⟨pointer, hpointer, hfound⟩ := Option.bind_eq_some_iff.mp haunt'
      obtain ⟨node', hnode', hsame⟩ := hhash pointer aunt' hfound
      exact ⟨node', Option.bind_eq_some_iff.mpr ⟨pointer, hpointer, hnode'⟩, hsame⟩

theorem Climbs.snoc (h : heap.Climbs spn top aunts) {node : SimpleProofNode} {aunt : Slice}
    {parent : ℕ} (hnode : heap[top]? = some node) (hsibling : heap.sibling node = some aunt)
    (hparent : node.parent = some parent) (hlt : top < parent) :
    heap.Climbs spn parent (aunts ++ [aunt]) := by
  induction aunts generalizing spn with
  | nil =>
    obtain rfl := h
    exact ⟨node, parent, hnode, hsibling, hparent, hlt, rfl⟩
  | cons aunt' aunts ih =>
    obtain ⟨node', parent', hnode', hsibling', hparent', hlt', hrest⟩ := h
    exact ⟨node', parent', hnode', hsibling', hparent', hlt', ih hrest⟩

theorem deref_eq_ok {pointer : Option ℕ} {node : SimpleProofNode} :
    heap.deref pointer = .ok node ↔ pointer.bind (heap[·]?) = some node := by
  rw [deref]
  cases pointer.bind (heap[·]?) with
  | none => simp
  | some node' => simp

/-- `FlattenAunts` finds the aunts on the way to a node without siblings. -/
theorem Climbs.flattenAunts (h : heap.Climbs spn top aunts) {root : SimpleProofNode}
    (hroot : heap[top]? = some root) (hleft : root.left = none) (hright : root.right = none)
    {fuel : ℕ} (hfuel : aunts.length < fuel) (innerHashes : List Slice) :
    Merkle.flattenAunts heap fuel (some spn) innerHashes = .ok (innerHashes ++ aunts) := by
  induction aunts generalizing spn fuel innerHashes with
  | nil =>
    obtain rfl := h
    obtain ⟨fuel, rfl⟩ := Nat.exists_eq_add_one_of_ne_zero (Nat.ne_zero_of_lt hfuel)
    have hfound : heap.deref (some spn) = .ok root := deref_eq_ok.mpr hroot
    rw [Merkle.flattenAunts, hfound]
    simp [hleft, hright, bind, Except.bind, pure, Except.pure]
  | cons aunt aunts ih =>
    obtain ⟨node, parent, hnode, hsibling, hparent, -, hrest⟩ := h
    obtain ⟨fuel, rfl⟩ := Nat.exists_eq_add_one_of_ne_zero (Nat.ne_zero_of_lt hfuel)
    rw [List.length_cons, Nat.add_lt_add_iff_right] at hfuel
    have hnext := ih hrest hfuel (innerHashes ++ [aunt])
    have hfound : heap.deref (some spn) = .ok node := deref_eq_ok.mpr hnode
    rw [Merkle.flattenAunts, hfound]
    rw [sibling, Option.map_eq_some_iff] at hsibling
    obtain ⟨aunt', haunt', rfl⟩ := hsibling
    rw [← hparent, List.append_assoc, List.singleton_append] at hnext
    -- the left sibling is looked at first, as in the alternative
    cases hfirst : node.left with
    | some pointer =>
      rw [hfirst] at haunt'
      have hderef : heap.deref (some pointer) = .ok aunt' := deref_eq_ok.mpr haunt'
      simpa [hfirst, hderef, bind, Except.bind] using hnext
    | none =>
      rw [hfirst] at haunt'
      have hderef : heap.deref node.right = .ok aunt' := deref_eq_ok.mpr haunt'
      have hsecond : node.right ≠ none := by
        intro hnone
        rw [hnone] at haunt'
        cases haunt'
      simpa [hfirst, hsecond, hderef, bind, Except.bind] using hnext

end Heap

/-! ## The trails -/

/-- What `trailsFromHashers` has done to a heap: the last node is the root of a tree, and every trail
climbs to it past the aunts of its leaf. -/
structure Built (tm : Hashing) (heap heap' : Heap) (trails : List ℕ) (t : MerkleTree Bytes) :
    Prop where
  grows : heap.length < heap'.length
  kept : ∀ i < heap.length, heap'[i]? = heap[i]?
  root : heap'[heap'.length - 1]? = some ⟨some (t.root tm.pair), none, none, none⟩
  trails : List.Forall₂ (fun spn path => heap.length ≤ spn ∧
    heap'.Climbs spn (heap'.length - 1) (path.map some)) trails (t.aunts tm.pair)

/-- The two roots are linked to a new one. -/
def join (heap : Heap) (left right : ℕ) (hash : Slice) : Heap :=
  ((heap ++ [(⟨hash, none, none, none⟩ : SimpleProofNode)]).modify left fun node =>
    { node with parent := some heap.length, right := some right }).modify right fun node =>
      { node with parent := some heap.length, left := some left }

section Join

variable {heap : Heap} {left right : ℕ} {hash : Slice}

theorem length_join : (join heap left right hash).length = heap.length + 1 := by
  simp [join]

theorem join_root (hleft : left < heap.length) (hright : right < heap.length) :
    (join heap left right hash)[heap.length]? = some ⟨hash, none, none, none⟩ := by
  rw [join, List.getElem?_modify, List.getElem?_modify]
  simp [hleft.ne, hright.ne]

theorem join_of_ne {i : ℕ} (hi : i < heap.length) (hleft : i ≠ left) (hright : i ≠ right) :
    (join heap left right hash)[i]? = heap[i]? := by
  rw [join, List.getElem?_modify, List.getElem?_modify, List.getElem?_append_left hi]
  simp [hleft.symm, hright.symm]

variable {node : SimpleProofNode}

theorem join_left (hne : left ≠ right) (hnode : heap[left]? = some node) :
    (join heap left right hash)[left]? =
      some { node with parent := some heap.length, right := some right } := by
  have hlt := (List.getElem?_eq_some_iff.mp hnode).1
  rw [join, List.getElem?_modify, List.getElem?_modify, List.getElem?_append_left hlt, hnode]
  simp [hne.symm]

theorem join_right (hne : left ≠ right) (hnode : heap[right]? = some node) :
    (join heap left right hash)[right]? =
      some { node with parent := some heap.length, left := some left } := by
  have hlt := (List.getElem?_eq_some_iff.mp hnode).1
  rw [join, List.getElem?_modify, List.getElem?_modify, List.getElem?_append_left hlt, hnode]
  simp [hne]

theorem join_hash {i : ℕ} (hne : left ≠ right) (hnode : heap[i]? = some node) :
    ∃ node', (join heap left right hash)[i]? = some node' ∧ node'.hash = node.hash := by
  by_cases hleft : i = left
  · subst hleft
    exact ⟨_, join_left hne hnode, rfl⟩
  · by_cases hright : i = right
    · subst hright
      exact ⟨_, join_right hne hnode, rfl⟩
    · exact ⟨node, (join_of_ne (List.getElem?_eq_some_iff.mp hnode).1 hleft hright).trans hnode, rfl⟩

end Join

theorem built_join {heap heap₁ heap₂ : Heap} {lefts rights : List ℕ} {left right : MerkleTree Bytes}
    (hleft : Built tm heap heap₁ lefts left) (hright : Built tm heap₁ heap₂ rights right) :
    Built tm heap (join heap₂ (heap₁.length - 1) (heap₂.length - 1)
      (some (tm.pair (left.root tm.pair) (right.root tm.pair)))) (lefts ++ rights)
      (.node left right) := by
  have hgrows := hleft.grows
  have hgrows' := hright.grows
  have hne : heap₁.length - 1 ≠ heap₂.length - 1 := by omega
  have hlast : heap₂.length + 1 - 1 = heap₂.length := Nat.add_sub_cancel _ _
  set hash : Slice := some (tm.pair (left.root tm.pair) (right.root tm.pair)) with hhashDef
  -- the root of the left half is still there after the right half was built
  have hrootLeft : heap₂[heap₁.length - 1]? = some ⟨some (left.root tm.pair), none, none, none⟩ := by
    rw [hright.kept _ (by omega), hleft.root]
  have hhash : ∀ (i : ℕ) (node : SimpleProofNode), heap₁[i]? = some node →
      ∃ node', (join heap₂ (heap₁.length - 1) (heap₂.length - 1) hash)[i]? = some node' ∧
        node'.hash = node.hash := by
    intro i node hnode
    refine join_hash hne ?_
    rw [hright.kept i (List.getElem?_eq_some_iff.mp hnode).1, hnode]
  refine ⟨?_, ?_, ?_, ?_⟩
  · rw [length_join]
    omega
  · intro i hi
    rw [join_of_ne (by omega) (by omega) (by omega), hright.kept i (by omega), hleft.kept i hi]
  · rw [length_join, hlast, join_root (by omega) (by omega)]
    rfl
  · rw [length_join, hlast, MerkleTree.aunts]
    refine List.rel_append ?_ ?_
    · rw [List.forall₂_map_right_iff]
      refine hleft.trails.imp fun spn path hclimbs => ⟨hclimbs.1, ?_⟩
      have hsame := hclimbs.2.mono (fun i _ hi => by
        rw [join_of_ne (by omega) (by omega) (by omega), hright.kept i (by omega)]) hhash
      rw [List.map_append]
      refine hsame.snoc (join_left hne hrootLeft) ?_ rfl (by omega)
      simp [Heap.sibling, join_right hne hright.root]
    · rw [List.forall₂_map_right_iff]
      refine hright.trails.imp fun spn path hclimbs => ⟨by omega, ?_⟩
      have hsame : (join heap₂ (heap₁.length - 1) (heap₂.length - 1) hash).Climbs spn
          (heap₂.length - 1) (path.map some) :=
        hclimbs.2.mono (fun i hi hi' => join_of_ne (by omega) (by omega) (by omega))
          (fun i node => join_hash hne)
      rw [List.map_append]
      refine hsame.snoc (join_right hne hright.root) ?_ rfl (by omega)
      simp [Heap.sibling, join_left hne hrootLeft]

theorem trailsFromHashers_built (h : Fits hash items t) (heap : Heap) : ∃ heap' trails,
      trailsFromHashers tm hash items heap = .ok (heap', trails, some (heap'.length - 1)) ∧
        Built tm heap heap' trails t := by
  induction t generalizing items heap with
  | leaf bz =>
    obtain ⟨item, rfl, hitem⟩ := h.leaf
    refine ⟨heap ++ [⟨hash item, none, none, none⟩], [heap.length], ?_, ?_, ?_, ?_, ?_⟩
    · rw [trailsFromHashers]
      simp
    · simp
    · exact fun i hi => List.getElem?_append_left hi
    · simp [hitem, MerkleTree.root]
    · simp [MerkleTree.aunts, Heap.Climbs]
  | node left right ihleft ihright =>
    obtain ⟨⟨item, item', rest, hitems⟩, hleft, hright⟩ := h.node
    obtain ⟨heap₁, lefts, htrailsLeft, hbuiltLeft⟩ := ihleft hleft heap
    obtain ⟨heap₂, rights, htrailsRight, hbuiltRight⟩ := ihright hright heap₁
    have hrootLeft : heap₂.deref (some (heap₁.length - 1)) =
        .ok ⟨some (left.root tm.pair), none, none, none⟩ := by
      have hgrows := hbuiltLeft.grows
      refine Heap.deref_eq_ok.mpr ?_
      rw [Option.bind_some, hbuiltRight.kept _ (by omega), hbuiltLeft.root]
    have hrootRight : heap₂.deref (some (heap₂.length - 1)) =
        .ok ⟨some (right.root tm.pair), none, none, none⟩ := Heap.deref_eq_ok.mpr hbuiltRight.root
    refine ⟨_, _, ?_, built_join hbuiltLeft hbuiltRight⟩
    subst hitems
    rw [trailsFromHashers]
    simp only [htrailsLeft, htrailsRight, hrootLeft, hrootRight, bind, Except.bind, pure,
      Except.pure, Option.getD_some, length_join, Nat.add_sub_cancel]
    rfl

theorem simpleProofsFromHashers_eq_ok (h : Fits hash items t) :
    simpleProofsFromHashers tm hash items =
      .ok (some (t.root tm.pair), (t.aunts tm.pair).map fun path => ⟨path.map some⟩) := by
  obtain ⟨heap, trails, htrails, hbuilt⟩ : ∃ heap' trails,
      trailsFromHashers tm hash items [] = .ok (heap', trails, some (heap'.length - 1)) ∧
        Built tm [] heap' trails t := trailsFromHashers_built h []
  have hgrows := hbuilt.grows
  have hroot : heap.deref (some (heap.length - 1)) =
      .ok ⟨some (t.root tm.pair), none, none, none⟩ := Heap.deref_eq_ok.mpr hbuilt.root
  have hproofs : (trails.mapM fun trail => do
      let aunts ← flattenAunts heap heap.length (some trail) []
      return (⟨aunts⟩ : SimpleProof)) =
      .ok ((t.aunts tm.pair).map fun path => ⟨path.map some⟩) := by
    refine mapM_of_forall₂ hbuilt.trails fun {trail path} hclimbs => ?_
    have hlength := hclimbs.2.length_le
    rw [hclimbs.2.flattenAunts hbuilt.root rfl rfl (by omega)]
    rfl
  rw [simpleProofsFromHashers, htrails]
  simp only [bind, Except.bind, hroot]
  simp only [bind, Except.bind] at hproofs
  rw [hproofs]
  rfl

/-! ## Verifying -/

theorem computeHashFromAuntsRev_out {index total : ℤ} {leafHash : Slice} {aunts : List Slice}
    (h : total ≤ index ∨ index < 0 ∨ total ≤ 0) :
    computeHashFromAuntsRev tm index total leafHash aunts = none := by
  cases aunts with
  | nil => rw [computeHashFromAuntsRev, if_pos h]
  | cons aunt aunts => rw [computeHashFromAuntsRev, if_pos h]

/-- From a nil leaf nothing is reached; from another one, what the climb of the tree reaches. -/
theorem computeHashFromAuntsRev_eq (index total : ℕ) (leafHash : Slice) (aunts : List Slice) :
    computeHashFromAuntsRev tm index total leafHash aunts =
      leafHash.bind fun bz => MerkleTree.climb tm.pair index total bz (aunts.map Slice.bytes) := by
  induction aunts generalizing index total with
  | nil =>
    rw [computeHashFromAuntsRev, List.map_nil]
    cases leafHash with
    | none => simp
    | some bz =>
      simp only [Option.bind_some, MerkleTree.climb]
      split_ifs <;> first | rfl | omega
  | cons aunt aunts ih =>
    rw [computeHashFromAuntsRev, List.map_cons]
    by_cases hout : (total : ℤ) ≤ index ∨ (index : ℤ) < 0 ∨ (total : ℤ) ≤ 0
    · have hclimb : ¬ (index < total ∧ total ≠ 1) := by omega
      rw [if_pos hout]
      cases leafHash <;> simp [MerkleTree.climb, hclimb]
    · rw [if_neg hout]
      by_cases hone : total = 1
      · have hclimb : ¬ (index < total ∧ total ≠ 1) := by omega
        rw [if_pos (by exact_mod_cast hone)]
        cases leafHash <;> simp [MerkleTree.climb, hclimb]
      · have hclimb : index < total ∧ total ≠ 1 := by omega
        have hhalf : ((total : ℤ) + 1) / 2 = ((total + 1) / 2 : ℕ) := by push_cast; rfl
        rw [if_neg (by exact_mod_cast hone)]
        simp only [hhalf, MerkleTree.climb, if_pos hclimb]
        by_cases hleft : index < (total + 1) / 2
        · rw [if_pos (by exact_mod_cast hleft), ih]
          cases leafHash with
          | none => rfl
          | some bz =>
            simp only [Option.bind_some, if_pos hleft]
            cases MerkleTree.climb tm.pair index ((total + 1) / 2) bz
              (aunts.map Slice.bytes) <;> rfl
        · have hindex : (index : ℤ) - ((total + 1) / 2 : ℕ) = (index - (total + 1) / 2 : ℕ) := by
            omega
          have htotal : (total : ℤ) - ((total + 1) / 2 : ℕ) = (total - (total + 1) / 2 : ℕ) := by
            omega
          rw [if_neg (by exact_mod_cast hleft), hindex, htotal, ih]
          cases leafHash with
          | none => rfl
          | some bz =>
            simp only [Option.bind_some, if_neg hleft]
            cases MerkleTree.climb tm.pair (index - (total + 1) / 2) (total - (total + 1) / 2)
              bz (aunts.map Slice.bytes) <;> rfl

theorem verify_iff {sp : SimpleProof} {index : ℤ} {total : ℕ} {leafHash : Slice} {root : Bytes} :
    sp.verify tm index total leafHash (some root) = true ↔
      ∃ (i : ℕ) (bz : Bytes), index = i ∧ leafHash = some bz ∧
        MerkleTree.climb tm.pair i total bz (sp.aunts.map Slice.bytes).reverse = some root := by
  rw [SimpleProof.verify, computeHashFromAunts, ← List.map_reverse]
  simp only [decide_eq_true_eq, bytesEqual]
  constructor
  · rintro ⟨hfound, hequal⟩
    have hindex : 0 ≤ index := by
      by_contra hneg
      exact hfound (computeHashFromAuntsRev_out (.inr (.inl (not_le.mp hneg))))
    obtain ⟨i, rfl⟩ := Int.eq_ofNat_of_zero_le hindex
    rw [computeHashFromAuntsRev_eq] at hfound hequal
    cases leafHash with
    | none => exact absurd rfl hfound
    | some bz =>
      obtain ⟨found, hclimb⟩ := Option.ne_none_iff_exists'.mp hfound
      rw [hclimb] at hequal
      obtain rfl : found = root := hequal
      exact ⟨i, bz, rfl, rfl, hclimb⟩
  · rintro ⟨i, bz, rfl, rfl, hclimb⟩
    rw [computeHashFromAuntsRev_eq, Option.bind_some, hclimb]
    exact ⟨Option.some_ne_none root, rfl⟩

theorem map_bytes_map_some (path : List Bytes) : (path.map some).map Slice.bytes = path := by
  rw [List.map_map]
  exact List.map_id path

theorem Fits.verify (h : Fits hash items t) {i : ℕ} {item : α} {path : List Bytes}
    (hitem : items[i]? = some item) (hpath : (t.aunts tm.pair)[i]? = some path) :
    (⟨path.map some⟩ : SimpleProof).verify tm i items.length (hash item)
      (some (t.root tm.pair)) = true := by
  have hleaf : t.leaves[i]?.map some = some (hash item) := by
    rw [← List.getElem?_map, ← h.2, List.getElem?_map, hitem, Option.map_some]
  obtain ⟨bz, hbz, hhash⟩ := Option.map_eq_some_iff.mp hleaf
  rw [verify_iff, h.length]
  refine ⟨i, bz, rfl, hhash.symm, ?_⟩
  rw [map_bytes_map_some]
  exact MerkleTree.climb_aunts h.1 hbz hpath

/-! ## Maps -/

/-- What a map entry is turned into. -/
def pairOf (hash : α → Slice) (entry : Bytes × α) : KVPair := ⟨entry.1, hash entry.2⟩

theorem foldl_set (entries : List (Bytes × α)) (sm : SimpleMap) (hsorted : sm.sorted = false) :
    entries.foldl (SimpleMap.set hash) sm = ⟨sm.kvs ++ entries.map (pairOf hash), false⟩ := by
  induction entries generalizing sm with
  | nil =>
    rw [List.foldl_nil, List.map_nil, List.append_nil, ← hsorted]
  | cons entry entries ih =>
    rw [List.foldl_cons, ih _ rfl, List.map_cons]
    simp [SimpleMap.set, pairOf]

theorem key_eq_of_le {kv kv' : KVPair} (h : kv.le kv' = true) (h' : kv'.le kv = true) :
    kv.key = kv'.key := by
  have hsame := le_antisymm (of_decide_eq_true h) (of_decide_eq_true h')
  exact congrArg (fun pair => (ofLex pair).1) hsame

theorem le_of_key_lt {kv kv' : KVPair} (h : kv.key < kv'.key) : kv.le kv' = true :=
  decide_eq_true (Prod.Lex.toLex_le_toLex.mpr (.inl h))

/-- In whatever order the entries of a map come, they are sorted into one list. -/
theorem sorted_kvs (h : entries.Perm m.toList) :
    (entries.foldl (SimpleMap.set hash) newSimpleMap).sort.kvs = m.toList.map (pairOf hash) := by
  have hkvs : (entries.foldl (SimpleMap.set hash) newSimpleMap).sort.kvs =
      (entries.map (pairOf hash)).mergeSort KVPair.le := by
    rw [foldl_set _ _ rfl]
    rfl
  have hperm : ((entries.map (pairOf hash)).mergeSort KVPair.le).Perm (m.toList.map (pairOf hash)) :=
    (List.mergeSort_perm _ _).trans (h.map _)
  have hsorted : ((entries.map (pairOf hash)).mergeSort KVPair.le).Pairwise
      fun kv kv' => kv.le kv' = true := by
    refine List.pairwise_mergeSort ?_ ?_ _
    · exact fun kv kv' kv'' hle hle' =>
        decide_eq_true ((of_decide_eq_true hle).trans (of_decide_eq_true hle'))
    · intro kv kv'
      rw [Bool.or_eq_true]
      exact (le_total _ _).imp decide_eq_true decide_eq_true
  have hsorted' : (m.toList.map (pairOf hash)).Pairwise fun kv kv' => kv.le kv' = true := by
    rw [List.pairwise_map]
    exact (KVStore.toList_pairwise m).imp fun hlt => le_of_key_lt hlt
  rw [hkvs]
  refine List.Perm.eq_of_pairwise ?_ hsorted hsorted' hperm
  -- a key has one entry, so pairs that are as large as each other are the same
  intro kv kv' hkv hkv' hle hle'
  obtain ⟨⟨key, value⟩, hentry, rfl⟩ := List.mem_map.mp (hperm.mem_iff.mp hkv)
  obtain ⟨⟨key', value'⟩, hentry', rfl⟩ := List.mem_map.mp hkv'
  obtain rfl : key = key' := key_eq_of_le hle hle'
  rw [KVStore.mem_toList] at hentry hentry'
  obtain rfl : value = value' := Option.some.inj (hentry.symm.trans hentry')
  rfl

theorem simpleHashFromMap_of_perm (h : entries.Perm m.toList) :
    simpleHashFromMap tm hash entries = simpleHashFromMap tm hash m.toList := by
  rw [simpleHashFromMap, simpleHashFromMap, SimpleMap.hash, SimpleMap.hash, sorted_kvs h,
    sorted_kvs (.refl _)]

theorem map_key_pairOf (entries : List (Bytes × α)) :
    (entries.map (pairOf hash)).map KVPair.key = entries.map Prod.fst := by
  rw [List.map_map]
  rfl

theorem getElem?_proofs {keys : List Bytes} {proofList : List SimpleProof} (hnodup : keys.Nodup)
    (hlength : keys.length = proofList.length) {i : ℕ} {key : Bytes} {proof : SimpleProof}
    (hkey : keys[i]? = some key) (hproof : proofList[i]? = some proof) :
    ((keys.zip proofList).foldl (fun proofs entry => proofs.insert entry.1 entry.2)
      (∅ : KVStore Bytes SimpleProof))[key]? = some proof := by
  have hentry : (key, proof) ∈ keys.zip proofList :=
    List.mem_of_getElem? (List.getElem?_zip_eq_some.mpr ⟨hkey, hproof⟩)
  refine KVStore.getElem?_foldl_insert ?_ hentry ∅
  rw [List.map_fst_zip hlength.le]
  exact hnodup

theorem toList_ne_nil (hm : m ≠ ∅) : m.toList ≠ [] := by
  intro hnil
  refine hm (KVStore.ext fun key => ?_)
  rw [KVStore.getElem?_empty, Option.eq_none_iff_forall_ne_some]
  intro value hvalue
  have hentry := KVStore.mem_toList.mpr hvalue
  rw [hnil] at hentry
  exact absurd hentry List.not_mem_nil

theorem simpleProofsFromMap_eq_ok (h : entries.Perm m.toList)
    (ht : Fits (KVPair.hash tm) (m.toList.map (pairOf hash)) t) :
    simpleProofsFromMap tm hash entries = .ok (some (t.root tm.pair),
        ((m.toList.map Prod.fst).zip ((t.aunts tm.pair).map fun path => ⟨path.map some⟩)).foldl
          (fun proofs entry => proofs.insert entry.1 entry.2) ∅, m.toList.map Prod.fst) ∧
      simpleHashFromMap tm hash entries = some (t.root tm.pair) := by
  constructor
  · rw [simpleProofsFromMap, sorted_kvs h, simpleProofsFromHashers_eq_ok ht, map_key_pairOf]
    rfl
  · rw [simpleHashFromMap, SimpleMap.hash, sorted_kvs h, simpleHashFromHashers_eq ht]

/-- Every list of items that all have hashes has its root proved: the root is the one
`SimpleHashFromHashers` computes, and the proof of each item verifies at its position.  The same holds
for the pairs of a map, in whatever order the map is gone through. -/
theorem merkle_proofs_complete (tm : Hashing) {α β : Type} (hash : α → Slice) (hash' : β → Slice) :
    (∀ items : List α, items ≠ [] → (∀ item ∈ items, hash item ≠ none) →
      ∃ root proofs, simpleProofsFromHashers tm hash items = .ok (root, proofs) ∧
        root = simpleHashFromHashers tm hash items ∧ proofs.length = items.length ∧
        ∀ (i : ℕ) (item : α) (proof : SimpleProof), items[i]? = some item → proofs[i]? = some proof →
          proof.verify tm i items.length (hash item) root = true) ∧
    ∀ m : KVStore Bytes β, m ≠ ∅ → ∃ root proofs keys,
      (∀ entries : List (Bytes × β), entries.Perm m.toList →
        simpleProofsFromMap tm hash' entries = .ok (root, proofs, keys) ∧
          simpleHashFromMap tm hash' entries = root) ∧
      (∀ key, key ∈ keys ↔ m[key]? ≠ none) ∧
      ∀ (i : ℕ) (key : Bytes) (value : β), keys[i]? = some key → m[key]? = some value →
        ∃ proof, proofs[key]? = some proof ∧
          proof.verify tm i keys.length (KVPair.hash tm ⟨key, hash' value⟩) root = true := by
  refine ⟨?_, ?_⟩
  · intro items hne hhash
    obtain ⟨t, ht⟩ := exists_fits hne hhash
    refine ⟨_, _, simpleProofsFromHashers_eq_ok ht, (simpleHashFromHashers_eq ht).symm, ?_, ?_⟩
    · rw [List.length_map, MerkleTree.length_aunts, ht.length]
    · intro i item proof hitem hproof
      rw [List.getElem?_map] at hproof
      obtain ⟨path, hpath, rfl⟩ := Option.map_eq_some_iff.mp hproof
      exact ht.verify hitem hpath
  · intro m hm
    obtain ⟨t, ht⟩ : ∃ t, Fits (KVPair.hash tm) (m.toList.map (pairOf hash')) t :=
      exists_fits (by simpa using toList_ne_nil hm) fun kv _ => Option.some_ne_none _
    have hsize : m.toList.length = t.size := by
      rw [← ht.length, List.length_map]
    refine ⟨_, _, _, fun entries hperm => simpleProofsFromMap_eq_ok hperm ht, ?_, ?_⟩
    · intro key
      rw [List.mem_map, Option.ne_none_iff_exists']
      constructor
      · rintro ⟨⟨key', value⟩, hentry, rfl⟩
        exact ⟨value, KVStore.mem_toList.mp hentry⟩
      · rintro ⟨value, hvalue⟩
        exact ⟨(key, value), KVStore.mem_toList.mpr hvalue, rfl⟩
    · intro i key value hkey hvalue
      have hlt : i < t.size := by
        rw [← hsize, ← List.length_map Prod.fst]
        exact (List.getElem?_eq_some_iff.mp hkey).1
      obtain ⟨path, hpath⟩ : ∃ path, (t.aunts tm.pair)[i]? = some path :=
        ⟨_, List.getElem?_eq_getElem (by rwa [MerkleTree.length_aunts])⟩
      refine ⟨⟨path.map some⟩, ?_, ?_⟩
      · refine getElem?_proofs (KVStore.keys_nodup m) ?_ hkey ?_
        · rw [List.length_map, List.length_map, MerkleTree.length_aunts, hsize]
        · rw [List.getElem?_map, hpath, Option.map_some]
      · -- the entry at the position of the key is the one that the map has for it
        rw [List.getElem?_map] at hkey
        obtain ⟨⟨key', value'⟩, hentry, rfl⟩ := Option.map_eq_some_iff.mp hkey
        have hfound := KVStore.mem_toList.mp (List.mem_of_getElem? hentry)
        obtain rfl : value' = value := Option.some.inj (hfound.symm.trans hvalue)
        have hitem : (m.toList.map (pairOf hash'))[i]? = some (pairOf hash' (key', value')) := by
          rw [List.getElem?_map, hentry, Option.map_some]
        have hverify := ht.verify hitem hpath
        rw [List.length_map] at hverify ⊢
        exact hverify

namespace Example

/-- A hash without collisions: the strings themselves, each with marks that say where it ends. -/
def delimited : Hashing := ⟨id, (Wire.list Wire.byte).put⟩

theorem delimited_injective (a b c d : Bytes)
    (h : simpleHashFromTwoHashes delimited (some a) (some b) =
      simpleHashFromTwoHashes delimited (some c) (some d)) : a = c ∧ b = d := by
  have hput : (Wire.list Wire.byte).put a ++ (Wire.list Wire.byte).put b =
      (Wire.list Wire.byte).put c ++ (Wire.list Wire.byte).put d := Option.some.inj h
  have hget := congrArg (Wire.list Wire.byte).get hput
  rw [Wire.get_put, Wire.get_put, Option.some.injEq, Prod.mk.injEq] at hget
  obtain ⟨rfl, hrest⟩ := hget
  have hdecode := congrArg (Wire.list Wire.byte).decode hrest
  rw [Wire.decode_put, Wire.decode_put] at hdecode
  exact ⟨rfl, Option.some.inj hdecode⟩

/-- The tree of three leaves. -/
def threeLeaves : MerkleTree Bytes := .node (.node (.leaf [1]) (.leaf [2])) (.leaf [3])

theorem fits_threeLeaves : Fits (id : Slice → Slice) [some [1], some [2], some [3]] threeLeaves := by
  refine ⟨⟨rfl, ⟨rfl, trivial, trivial⟩, trivial⟩, rfl⟩

end Example

/-- Three strings that are their own hashes, and a map with one entry. -/
theorem merkle_proofs_complete_three :
    (∃ root proofs, simpleProofsFromHashers Example.delimited some [([1] : Bytes), [2], [3]] =
        .ok (root, proofs) ∧
      root = simpleHashFromHashers Example.delimited some [([1] : Bytes), [2], [3]] ∧
      proofs.length = 3) ∧
    ∃ root proofs keys, simpleProofsFromMap Example.delimited some [(([7] : Bytes), ([1] : Bytes))] =
      .ok (root, proofs, keys) ∧ [7] ∈ keys := by
  obtain ⟨hlist, hmap⟩ := merkle_proofs_complete Example.delimited (some : Bytes → Slice)
    (some : Bytes → Slice)
  constructor
  · obtain ⟨root, proofs, hproofs, hroot, hlength, -⟩ :=
      hlist [[1], [2], [3]] (by simp) (by simp)
    exact ⟨root, proofs, hproofs, hroot, hlength⟩
  · have hne : (∅ : KVStore Bytes Bytes).insert [7] [1] ≠ ∅ := by
      intro hempty
      have hfound := KVStore.getElem?_insert_self (∅ : KVStore Bytes Bytes) [7] [1]
      rw [hempty, KVStore.getElem?_empty] at hfound
      cases hfound
    obtain ⟨root, proofs, keys, hall, hkeys, -⟩ := hmap _ hne
    refine ⟨root, proofs, keys, (hall [([7], [1])] ?_).1, (hkeys [7]).mpr ?_⟩
    · have hlist : ((∅ : KVStore Bytes Bytes).insert [7] [1]).toList = [([7], [1])] := by decide
      rw [hlist]
    · rw [KVStore.getElem?_insert_self]
      exact Option.some_ne_none _

/-! ## Soundness -/

/-- If the hash of two hashes has no collisions, a proof that is accepted for a list of leaf hashes is
about one of its leaves, has the hash of that leaf and, byte for byte, the aunts of the proof that is
generated for it. -/
theorem merkle_proofs_sound {tm : Hashing}
    (hinj : ∀ a b c d : Bytes, simpleHashFromTwoHashes tm (some a) (some b) =
      simpleHashFromTwoHashes tm (some c) (some d) → a = c ∧ b = d)
    {leaves : List Bytes} (hne : leaves ≠ []) {index : ℤ} {leafHash : Slice} {sp : SimpleProof}
    (haccepts : sp.verify tm index leaves.length leafHash
      (simpleHashFromHashes tm (leaves.map some)) = true) :
    0 ≤ index ∧ index < leaves.length ∧ leaves[index.toNat]?.map some = some leafHash ∧
      ∃ root proofs generated, simpleProofsFromHashers tm some leaves = .ok (root, proofs) ∧
        proofs[index.toNat]? = some generated ∧
        sp.aunts.map Slice.bytes = generated.aunts.map Slice.bytes := by
  obtain ⟨t, ht⟩ : ∃ t, Fits (some : Bytes → Slice) leaves t :=
    exists_fits hne fun bz _ => Option.some_ne_none bz
  have hleaves : t.leaves = leaves := List.map_injective_iff.mpr (Option.some_injective _) ht.2.symm
  have hpair : Function.Injective2 tm.pair :=
    fun a c b d hsame => hinj a b c d (congrArg some hsame)
  have hroot : simpleHashFromHashes tm (leaves.map some) = some (t.root tm.pair) :=
    simpleHashFromHashers_eq ht
  rw [hroot, verify_iff, ht.length] at haccepts
  obtain ⟨i, bz, rfl, rfl, hclimb⟩ := haccepts
  obtain ⟨hleaf, hpath⟩ := MerkleTree.of_climb hpair ht.1 hclimb
  have hlt : i < t.size := (List.getElem?_eq_some_iff.mp hleaf).1
  rw [Int.toNat_natCast]
  refine ⟨Int.natCast_nonneg i, ?_, ?_, _, _, ⟨(sp.aunts.map Slice.bytes).map some⟩,
    simpleProofsFromHashers_eq_ok ht, ?_, ?_⟩
  · rw [ht.length]
    exact_mod_cast hlt
  · rw [← hleaves, hleaf, Option.map_some]
  · rw [List.getElem?_map, hpath, Option.map_some]
  · rw [map_bytes_map_some]

/-- The proof for the second of three leaves. -/
theorem merkle_proofs_sound_three :
    (⟨[some [1], some [3]]⟩ : SimpleProof).verify Example.delimited 1 3 (some [2])
        (simpleHashFromHashes Example.delimited [some [1], some [2], some [3]]) = true ∧
      ∃ root proofs generated,
        simpleProofsFromHashers Example.delimited some [([1] : Bytes), [2], [3]] = .ok (root, proofs) ∧
          proofs[1]? = some generated ∧ generated.aunts.map Slice.bytes = [[1], [3]] := by
  have haccepts : (⟨[some [1], some [3]]⟩ : SimpleProof).verify Example.delimited 1 3 (some [2])
      (simpleHashFromHashes Example.delimited [some [1], some [2], some [3]]) = true := by
    rw [simpleHashFromHashes_eq Example.fits_threeLeaves]
    decide +kernel
  have hleaves : ([[1], [2], [3]] : List Bytes) ≠ [] := by simp
  obtain ⟨-, -, -, root, proofs, generated, hproofs, hgenerated, haunts⟩ :=
    merkle_proofs_sound Example.delimited_injective hleaves haccepts
  exact ⟨haccepts, root, proofs, generated, hproofs, hgenerated, haunts.symm⟩

end Tepleton.Crypto.Merkle
