import Mathlib

/-!
# Binary hash trees

A tree with hashes at its leaves has a root hash, and every leaf has a list of aunts: the root hashes
of the subtrees that hang off its way up.  A verifier that knows the number of leaves, a position, a
leaf hash and a list of aunts can climb to a root hash; it has to know where the leaves were split,
and here the left half is the larger one.

* `climb_aunts`: from every leaf its aunts lead to the root.
* `of_climb`: if the hash of two hashes has no collisions, nothing else leads there.
-/

namespace Tepleton.Lib

/-- A binary tree with hashes at its leaves. -/
inductive MerkleTree (H : Type*)
  | leaf (hash : H)
  | node (left right : MerkleTree H)

namespace MerkleTree

variable {H : Type*} (combine : H → H → H)

/-- The hashes at the leaves, from left to right. -/
def leaves : MerkleTree H → List H
  | leaf hash => [hash]
  | node left right => left.leaves ++ right.leaves

/-- The number of leaves. -/
def size (t : MerkleTree H) : ℕ := t.leaves.length

/-- The hash of the whole tree. -/
def root : MerkleTree H → H
  | leaf hash => hash
  | node left right => combine left.root right.root

/-- The aunts of every leaf, from its sibling up to a child of the root. -/
def aunts : MerkleTree H → List (List H)
  | leaf _ => [[]]
  | node left right =>
    left.aunts.map (· ++ [right.root combine]) ++ right.aunts.map (· ++ [left.root combine])

/-- Leaves are split in halves everywhere, the left one being the larger. -/
def Halved : MerkleTree H → Prop
  | leaf _ => True
  | node left right =>
    left.size = (left.size + right.size + 1) / 2 ∧ left.Halved ∧ right.Halved

@[simp] theorem size_leaf (hash : H) : (leaf hash).size = 1 := rfl

@[simp] theorem size_node (left right : MerkleTree H) :
    (node left right).size = left.size + right.size := List.length_append

theorem size_pos (t : MerkleTree H) : 0 < t.size := by
  induction t with
  | leaf hash => exact Nat.one_pos
  | node left right ihleft _ =>
    rw [size_node]
    omega

@[simp] theorem length_aunts (t : MerkleTree H) : (t.aunts combine).length = t.size := by
  induction t with
  | leaf hash => rfl
  | node left right ihleft ihright =>
    rw [aunts, List.length_append, List.length_map, List.length_map, ihleft, ihright, size_node]

/-- Every list that is not empty is the list of leaves of a halved tree. -/
theorem exists_halved (hashes : List H) (hne : hashes ≠ []) :
    ∃ t : MerkleTree H, t.Halved ∧ t.leaves = hashes := by
  induction hlength : hashes.length using Nat.strong_induction_on generalizing hashes with
  | _ n ih =>
    match hashes, hne with
    | [hash], _ => exact ⟨leaf hash, trivial, rfl⟩
    | hash :: hash' :: rest, _ =>
      set whole := hash :: hash' :: rest with hwhole
      have htwo : 2 ≤ n := by
        rw [← hlength, hwhole, List.length_cons, List.length_cons]
        omega
      -- both halves are shorter than the whole and not empty
      have htake : (whole.take ((n + 1) / 2)).length = (n + 1) / 2 := by
        rw [List.length_take]
        omega
      have hdrop : (whole.drop ((n + 1) / 2)).length = n - (n + 1) / 2 := by
        rw [List.length_drop, hlength]
      obtain ⟨left, hleft, hleavesLeft⟩ := ih _ (by omega) (whole.take ((n + 1) / 2))
        (List.ne_nil_of_length_pos (by omega)) htake
      obtain ⟨right, hright, hleavesRight⟩ := ih _ (by omega) (whole.drop ((n + 1) / 2))
        (List.ne_nil_of_length_pos (by omega)) hdrop
      refine ⟨node left right, ⟨?_, hleft, hright⟩, ?_⟩
      · rw [size, size, hleavesLeft, hleavesRight, htake, hdrop]
        congr 1
        omega
      · rw [leaves, hleavesLeft, hleavesRight, List.take_append_drop]

theorem Halved.take_drop {left right : MerkleTree H} (h : (node left right).Halved) {α β : Type*}
    {items : List α} {f : α → β} {g : H → β}
    (hitems : items.map f = (node left right).leaves.map g) :
    (items.take ((items.length + 1) / 2)).map f = left.leaves.map g ∧
      (items.drop ((items.length + 1) / 2)).map f = right.leaves.map g := by
  have hlength : items.length = left.size + right.size := by
    rw [← List.length_map f, hitems, List.length_map]
    exact size_node left right
  rw [List.map_take, List.map_drop, hitems, hlength, ← h.1, leaves, List.map_append]
  exact ⟨List.take_left' (List.length_map g), List.drop_left' (List.length_map g)⟩

/-! ## Climbing -/

/-- The root hash reached from a leaf hash at position `index` of `total`.  Aunts are given from the
root down. -/
def climb (index total : ℕ) (hash : H) : List H → Option H
  | [] => if index = 0 ∧ total = 1 then some hash else none
  | aunt :: aunts =>
    if index < total ∧ total ≠ 1 then
      if index < (total + 1) / 2 then
        (climb index ((total + 1) / 2) hash aunts).map fun left => combine left aunt
      else
        (climb (index - (total + 1) / 2) (total - (total + 1) / 2) hash aunts).map fun right =>
          combine aunt right
    else none

variable {combine}

theorem climb_leaf {index : ℕ} {hash found : H} {aunts : List H} :
    climb combine index 1 hash aunts = some found ↔ index = 0 ∧ aunts = [] ∧ hash = found := by
  cases aunts with
  | nil => simp [climb]
  | cons aunt aunts => simp [climb]

/-- Climbing above a node goes through one of its children. -/
theorem climb_node {left right : MerkleTree H} (h : (node left right).Halved) {index : ℕ}
    {hash found : H} {aunts : List H} :
    climb combine index (node left right).size hash aunts = some found ↔
      ∃ aunt rest, aunts = aunt :: rest ∧
        ((index < left.size ∧
            ∃ below, climb combine index left.size hash rest = some below ∧
              combine below aunt = found) ∨
          (left.size ≤ index ∧ index < left.size + right.size ∧
            ∃ below, climb combine (index - left.size) right.size hash rest = some below ∧
              combine aunt below = found)) := by
  have hleft := left.size_pos
  have hright := right.size_pos
  have hsplit : (left.size + right.size + 1) / 2 = left.size := h.1.symm
  cases aunts with
  | nil =>
    rw [climb, size_node, if_neg (by omega)]
    simp
  | cons aunt rest =>
    rw [climb, size_node, hsplit, Nat.add_sub_cancel_left]
    have hone : left.size + right.size ≠ 1 := by omega
    by_cases hindex : index < left.size
    · rw [if_pos ⟨by omega, hone⟩, if_pos hindex]
      simp [hindex, not_le.mpr hindex]
    · by_cases htotal : index < left.size + right.size
      · rw [if_pos ⟨htotal, hone⟩, if_neg hindex]
        simp [hindex, htotal, not_lt.mp hindex]
      · rw [if_neg (fun hboth => htotal hboth.1)]
        simp [hindex, htotal]

theorem leaves_node_left {left right : MerkleTree H} {index : ℕ} (h : index < left.size) :
    (node left right).leaves[index]? = left.leaves[index]? :=
  List.getElem?_append_left h

theorem leaves_node_right {left right : MerkleTree H} {index : ℕ} (h : left.size ≤ index) :
    (node left right).leaves[index]? = right.leaves[index - left.size]? :=
  List.getElem?_append_right h

theorem aunts_node_left {left right : MerkleTree H} {index : ℕ} (h : index < left.size) :
    ((node left right).aunts combine)[index]? =
      (left.aunts combine)[index]?.map (· ++ [right.root combine]) := by
  rw [aunts, List.getElem?_append_left (by simpa using h), List.getElem?_map]

theorem aunts_node_right {left right : MerkleTree H} {index : ℕ} (h : left.size ≤ index) :
    ((node left right).aunts combine)[index]? =
      (right.aunts combine)[index - left.size]?.map (· ++ [left.root combine]) := by
  rw [aunts, List.getElem?_append_right (by simpa using h), List.length_map, length_aunts,
    List.getElem?_map]

/-- From every leaf its aunts lead to the root. -/
theorem climb_aunts {t : MerkleTree H} (ht : t.Halved) {index : ℕ} {hash : H} {path : List H}
    (hhash : t.leaves[index]? = some hash) (hpath : (t.aunts combine)[index]? = some path) :
    climb combine index t.size hash path.reverse = some (t.root combine) := by
  induction t generalizing index path with
  | leaf found =>
    rw [size_leaf, climb_leaf]
    obtain ⟨hindex, hfound⟩ := List.getElem?_eq_some_iff.mp hhash
    have hzero : index = 0 := by
      simp only [leaves, List.length_singleton] at hindex
      omega
    subst hzero
    simp only [aunts, List.getElem?_cons_zero, Option.some.injEq] at hpath
    simp only [leaves, List.getElem_cons_zero] at hfound
    exact ⟨rfl, by rw [← hpath, List.reverse_nil], hfound.symm⟩
  | node left right ihleft ihright =>
    rw [climb_node ht]
    by_cases hindex : index < left.size
    · rw [leaves_node_left hindex] at hhash
      rw [aunts_node_left hindex] at hpath
      obtain ⟨path', hpath', rfl⟩ := Option.map_eq_some_iff.mp hpath
      refine ⟨right.root combine, path'.reverse, by simp, .inl ⟨hindex, ?_⟩⟩
      exact ⟨_, ihleft ht.2.1 hhash hpath', rfl⟩
    · have hle := not_lt.mp hindex
      have htotal : index < left.size + right.size := by
        rw [← size_node]
        exact (List.getElem?_eq_some_iff.mp hhash).1
      rw [leaves_node_right hle] at hhash
      rw [aunts_node_right hle] at hpath
      obtain ⟨path', hpath', rfl⟩ := Option.map_eq_some_iff.mp hpath
      refine ⟨left.root combine, path'.reverse, by simp, .inr ⟨hle, htotal, ?_⟩⟩
      exact ⟨_, ihright ht.2.2 hhash hpath', rfl⟩

/-- Without collisions nothing else leads to the root. -/
theorem of_climb (hinj : Function.Injective2 combine) {t : MerkleTree H} (ht : t.Halved)
    {index : ℕ} {hash : H} {path : List H}
    (h : climb combine index t.size hash path.reverse = some (t.root combine)) :
    t.leaves[index]? = some hash ∧ (t.aunts combine)[index]? = some path := by
  induction t generalizing index path with
  | leaf found =>
    rw [size_leaf, climb_leaf, List.reverse_eq_nil_iff] at h
    obtain ⟨rfl, rfl, rfl⟩ := h
    exact ⟨rfl, rfl⟩
  | node left right ihleft ihright =>
    rw [climb_node ht] at h
    obtain ⟨aunt, rest, hpath, hcase⟩ := h
    obtain rfl : path = rest.reverse ++ [aunt] := by
      rw [← List.reverse_reverse path, hpath, List.reverse_cons]
    rcases hcase with ⟨hindex, below, hbelow, hroot⟩ | ⟨hindex, -, below, hbelow, hroot⟩
    · -- the top hash can only be put together from the roots of the two halves
      obtain ⟨rfl, rfl⟩ := hinj hroot
      rw [← List.reverse_reverse rest] at hbelow
      obtain ⟨hleaf, haunts⟩ := ihleft ht.2.1 hbelow
      rw [leaves_node_left hindex, aunts_node_left hindex, haunts]
      exact ⟨hleaf, rfl⟩
    · obtain ⟨rfl, rfl⟩ := hinj hroot
      rw [← List.reverse_reverse rest] at hbelow
      obtain ⟨hleaf, haunts⟩ := ihright ht.2.2 hbelow
      rw [leaves_node_right hindex, aunts_node_right hindex, haunts]
      exact ⟨hleaf, rfl⟩

end MerkleTree

end Tepleton.Lib
