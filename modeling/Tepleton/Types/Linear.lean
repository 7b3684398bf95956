import Tepleton.Lib.Unwinding
import Tepleton.Stake.Keeper.Raw
import Tepleton.Types.Strconv

/-!
# Lists and queues in a store: types/lib/linear.go

A `Linear` keeps elements in a store under a key followed by their index, twenty digits wide, and
beside them the number of elements ever pushed and, for a queue, the index of the first one that is
still there.

As a list it is a sparse array (`list_is_sparse_array`).  `Iterate` goes through the keys that begin
with the byte 1, whatever the keys of the list are, so that the key of the elements has to begin
with that byte and the key of the length must not.

As a queue it is a queue (`queue_is_fifo`), as long as no continuation of `Flush` asks to stop.  The
loop of `Flush` then leaves before it has counted the element it has deleted, and the first index
stays where there is no element any more.
-/

namespace Tepleton

open Lib
open Stake (asciiDigits length_asciiDigits asciiDigits_lt_iff asciiDigits_inj)
open Stake.Raw (BinaryCodec RawPanic mustUnmarshalBinary mustUnmarshalBinary_eq_ok
  kvStorePrefixIterator)
open Store (InDomain exists_prefixEndBytes inDomain_prefixEnd_iff)

/-! ## The code -/

/-- The keys that `NewLinear` accepts; it refuses those that are `nil`. -/
structure LinearKeys where
  lengthKey : Bytes
  elemKey : Bytes
  topKey : Bytes

def defaultLinearKeys : LinearKeys := ⟨[0x00], [0x01], [0x02]⟩

/-- The codec for elements, the one for `uint64`, and the keys. -/
structure Linear (α : Type) where
  cdc : BinaryCodec α
  numbers : BinaryCodec ℕ
  keys : LinearKeys

inductive LinearPanic
  | raw (panic : RawPanic)
  | sliceBounds
  | parseUint (err : NumError)
  | get
  deriving DecidableEq, Repr

namespace Linear

variable {α : Type} (m : Linear α) (store : KVStore Bytes Bytes)

def elemKey (index : ℕ) : Bytes := m.keys.elemKey ++ asciiDigits 20 index

/-- The number stored under a key, 0 if there is none. -/
def number (key : Bytes) : Except LinearPanic ℕ :=
  match store[key]? with
  | none => .ok 0
  | some bz => (mustUnmarshalBinary m.numbers (some bz)).mapError .raw

def len : Except LinearPanic ℕ := m.number store m.keys.lengthKey

/-- `Get`, with `none` for an error: there are no bytes, or they cannot be decoded. -/
def get (index : ℕ) : Option α := store[m.elemKey index]?.bind m.cdc.unmarshalBinary

def set (index : ℕ) (value : α) : KVStore Bytes Bytes :=
  store.insert (m.elemKey index) (m.cdc.marshalBinary value)

def delete (index : ℕ) : KVStore Bytes Bytes := store.erase (m.elemKey index)

def setNumber (key : Bytes) (n : ℕ) : KVStore Bytes Bytes :=
  store.insert key (m.numbers.marshalBinary n)

def push (value : α) : Except LinearPanic (KVStore Bytes Bytes) := do
  let length ← m.len store
  return m.setNumber (m.set store length value) m.keys.lengthKey ((length + 1) % 2 ^ 64)

/-- The index in the last twenty bytes of a key. -/
def indexOf (k : Bytes) : Except LinearPanic ℕ :=
  if k.length < 20 then .error .sliceBounds
  else (parseUint (k.drop (k.length - 20))).mapError .parseUint

/-- The loop of `Iterate`.  The continuation decides with all it has seen so far. -/
def visit (stop : List (ℕ × α) → Bool) (seen : List (ℕ × α)) :
    List (Bytes × Bytes) → Except LinearPanic (List (ℕ × α))
  | [] => .ok seen
  | (k, v) :: pairs =>
    match mustUnmarshalBinary m.cdc (some v) with
    | .error panic => .error (.raw panic)
    | .ok value =>
      match indexOf k with
      | .error panic => .error panic
      | .ok index =>
        if stop (seen ++ [(index, value)]) then .ok (seen ++ [(index, value)])
        else visit stop (seen ++ [(index, value)]) pairs

/-- `Iterate`: what the continuation is called with. -/
def iterate (stop : List (ℕ × α) → Bool) : Except LinearPanic (List (ℕ × α)) :=
  match kvStorePrefixIterator store [0x01] with
  | .error panic => .error (.raw panic)
  | .ok pairs => m.visit stop [] pairs

def getTop : Except LinearPanic ℕ := m.number store m.keys.topKey

def setTop (top : ℕ) : KVStore Bytes Bytes := m.setNumber store m.keys.topKey top

def peek : Except LinearPanic (Option α) := do
  let top ← m.getTop store
  return m.get store top

def pop : Except LinearPanic (KVStore Bytes Bytes) := do
  let top ← m.getTop store
  return m.setTop (m.delete store top) ((top + 1) % 2 ^ 64)

def isEmpty : Except LinearPanic Bool := do
  let top ← m.getTop store
  let length ← m.len store
  return decide (length ≤ top)

/-- The loop of `Flush` with so many indices to go, from the index `i` on: what the continuation has
been given, the store and the index where the loop ends. -/
def flushFrom (stop : List α → Bool) (i : ℕ) (seen : List α) (store : KVStore Bytes Bytes) :
    ℕ → Except LinearPanic (List α × KVStore Bytes Bytes × ℕ)
  | 0 => .ok (seen, store, i)
  | n + 1 =>
    match m.get store i with
    | none => .error .get
    | some value =>
      if stop (seen ++ [value]) then .ok (seen ++ [value], m.delete store i, i)
      else flushFrom stop (i + 1) (seen ++ [value]) (m.delete store i) n

def flush (stop : List α → Bool) : Except LinearPanic (List α × KVStore Bytes Bytes) := do
  let top ← m.getTop store
  let length ← m.len store
  let (seen, store, i) ← m.flushFrom stop top [] store (length - top)
  return (seen, m.setTop store i)

end Linear

/-! ## What they are for -/

/-- What a continuation is called with, one after the other, until it asks to stop. -/
def takeUntil {β : Type} (stop : List β → Bool) (seen : List β) : List β → List β
  | [] => seen
  | b :: rest =>
    if stop (seen ++ [b]) then seen ++ [b] else takeUntil stop (seen ++ [b]) rest

inductive ListCall (α : Type)
  | push (value : α)
  | set (index : ℕ) (value : α)
  | delete (index : ℕ)

inductive QueueCall (α : Type)
  | push (value : α)
  | peek
  | pop
  | isEmpty
  | flush (stop : List α → Bool)

inductive QueueAnswer (α : Type)
  | done
  | elem (value : Option α)
  | empty (answer : Bool)
  | passed (elems : List α)
  deriving DecidableEq, Repr

structure SparseArray (α : Type) where
  length : ℕ
  cells : KVStore ℕ α

section Calls

variable {α : Type}

def ListCall.isPush : ListCall α → Bool
  | .push _ => true
  | _ => false

def QueueCall.isPush : QueueCall α → Bool
  | .push _ => true
  | _ => false

def ListCall.run (m : Linear α) (store : KVStore Bytes Bytes) :
    ListCall α → Except LinearPanic (KVStore Bytes Bytes)
  | .push value => m.push store value
  | .set index value => .ok (m.set store index value)
  | .delete index => .ok (m.delete store index)

def QueueCall.run (m : Linear α) (store : KVStore Bytes Bytes) :
    QueueCall α → Except LinearPanic (QueueAnswer α × KVStore Bytes Bytes)
  | .push value => do return (.done, ← m.push store value)
  | .peek => do return (.elem (← m.peek store), store)
  | .pop => do return (.done, ← m.pop store)
  | .isEmpty => do return (.empty (← m.isEmpty store), store)
  | .flush stop => do
    let (seen, store) ← m.flush store stop
    return (.passed seen, store)

/-- One call on a sparse array; it is not allowed outside. -/
def SparseArray.step (array : SparseArray α) : ListCall α → Option (SparseArray α)
  | .push value => some ⟨array.length + 1, array.cells.insert array.length value⟩
  | .set index value =>
    if index < array.length then some ⟨array.length, array.cells.insert index value⟩ else none
  | .delete index =>
    if index < array.length then some ⟨array.length, array.cells.erase index⟩ else none

/-- One call on a mathematical queue. -/
def QueueCall.onQueue (queue : List α) : QueueCall α → QueueAnswer α × List α
  | .push value => (.done, queue ++ [value])
  | .peek => (.elem queue.head?, queue)
  | .pop => (.done, queue.tail)
  | .isEmpty => (.empty queue.isEmpty, queue)
  | .flush stop =>
    (.passed (takeUntil stop [] queue), queue.drop (takeUntil stop [] queue).length)

/-- `Peek` and `Pop` only when the queue is not empty. -/
def QueueCall.Allowed (queue : List α) : QueueCall α → Prop
  | .peek => queue ≠ []
  | .pop => queue ≠ []
  | _ => True

/-- The continuation of a `Flush` does not ask to stop. -/
def QueueCall.GoesOn (queue : List α) : QueueCall α → Prop
  | .flush stop => ∀ n < queue.length, stop (queue.take (n + 1)) = false
  | _ => True

/-- All calls are allowed and none asks to stop. -/
def GoOn : List α → List (QueueCall α) → Prop
  | _, [] => True
  | queue, call :: calls =>
    call.Allowed queue ∧ call.GoesOn queue ∧ GoOn (call.onQueue queue).2 calls

end Calls

/-- No key is a prefix of another. -/
def LinearKeys.Apart (keys : LinearKeys) : Prop :=
  [keys.lengthKey, keys.elemKey, keys.topKey].Pairwise fun a b => ¬ a <+: b ∧ ¬ b <+: a

instance (keys : LinearKeys) : Decidable keys.Apart := inferInstanceAs (Decidable (List.Pairwise ..))

/-! ## Keys and numbers -/

namespace Linear

variable {α : Type} {m : Linear α} {store : KVStore Bytes Bytes}

theorem lengthKey_ne_elemKey (h : m.keys.Apart) (i : ℕ) : m.keys.lengthKey ≠ m.elemKey i := by
  intro heq
  rw [LinearKeys.Apart, List.pairwise_cons] at h
  exact (h.1 m.keys.elemKey (by simp)).2 ⟨_, heq.symm⟩

theorem topKey_ne_elemKey (h : m.keys.Apart) (i : ℕ) : m.keys.topKey ≠ m.elemKey i := by
  intro heq
  rw [LinearKeys.Apart, List.pairwise_cons, List.pairwise_cons] at h
  exact (h.2.1 m.keys.topKey (by simp)).1 ⟨_, heq.symm⟩

theorem lengthKey_ne_topKey (h : m.keys.Apart) : m.keys.lengthKey ≠ m.keys.topKey := by
  intro heq
  rw [LinearKeys.Apart, List.pairwise_cons] at h
  exact (h.1 m.keys.topKey (by simp)).1 (heq ▸ List.prefix_rfl)

theorem elemKey_inj {i j : ℕ} (hi : i < 2 ^ 64) (hj : j < 2 ^ 64) :
    m.elemKey i = m.elemKey j ↔ i = j := by
  rw [elemKey, elemKey, List.append_cancel_left_eq, asciiDigits_inj (by omega) (by omega)]

theorem elemKey_lt_iff {i j : ℕ} (hi : i < 2 ^ 64) (hj : j < 2 ^ 64) :
    m.elemKey i < m.elemKey j ↔ i < j := by
  rw [elemKey, elemKey, append_lt_append_iff rfl, asciiDigits_lt_iff (by omega) (by omega)]
  simp

theorem number_congr {store' : KVStore Bytes Bytes} {key : Bytes} (h : store'[key]? = store[key]?) :
    m.number store' key = m.number store key := by
  rw [number, number, h]

theorem number_setNumber (key : Bytes) (n : ℕ) : m.number (m.setNumber store key n) key = .ok n := by
  rw [number, setNumber, KVStore.getElem?_insert_self]
  dsimp only
  rw [mustUnmarshalBinary_eq_ok]
  rfl

theorem accumulate_asciiDigits (width n acc : ℕ) :
    accumulate acc (asciiDigits width n) = acc * 10 ^ width + n % 10 ^ width := by
  induction width generalizing acc with
  | zero => simp [accumulate, asciiDigits, bigEndian, Nat.mod_one]
  | succ width ih =>
    have hdigit : (toByte (48 + n / 10 ^ width % 10)).val - 48 = n / 10 ^ width % 10 := by
      rw [val_toByte_digit (Nat.mod_lt _ (by norm_num))]
      omega
    have hstep : accumulate acc (asciiDigits (width + 1) n) =
        accumulate (acc * 10 + n / 10 ^ width % 10) (asciiDigits width n) := by
      rw [← hdigit]
      rfl
    rw [hstep, ih, Nat.mod_pow_succ, pow_succ]
    ring

theorem parseUint_asciiDigits {i : ℕ} (hi : i < 2 ^ 64) : parseUint (asciiDigits 20 i) = .ok i := by
  have hdigits : ∀ b ∈ asciiDigits 20 i, IsDigit b := by
    intro b hb
    obtain ⟨d, hd, rfl⟩ := List.mem_map.mp hb
    have hlt := lt_of_mem_bigEndian (by norm_num) hd
    have := val_toByte_digit hlt
    rw [IsDigit]
    omega
  have hvalue : accumulate 0 (asciiDigits 20 i) = i := by
    rw [accumulate_asciiDigits, Nat.mod_eq_of_lt (by omega), zero_mul, zero_add]
  rw [parseUint, if_neg (List.ne_nil_of_length_pos (by simp)),
    parseUintFrom_of_digits 0 hdigits (by norm_num), hvalue, if_pos hi]

theorem indexOf_elemKey {i : ℕ} (hi : i < 2 ^ 64) : indexOf (m.elemKey i) = .ok i := by
  have hlength : (m.elemKey i).length = m.keys.elemKey.length + 20 := by simp [elemKey]
  have hindex : (m.elemKey i).drop ((m.elemKey i).length - 20) = asciiDigits 20 i := by
    rw [hlength, Nat.add_sub_cancel, elemKey, List.drop_left]
  rw [indexOf, if_neg (by omega), hindex, parseUint_asciiDigits hi]
  rfl

/-! ## The list -/

/-- What the store of a list holds. -/
structure Holds (m : Linear α) (store : KVStore Bytes Bytes) (array : SparseArray α) : Prop where
  length : m.len store = .ok array.length
  elem : ∀ i < 2 ^ 64, store[m.elemKey i]? = array.cells[i]?.map m.cdc.marshalBinary
  other : ∀ key bz, store[key]? = some bz →
    key = m.keys.lengthKey ∨ ∃ i < 2 ^ 64, key = m.elemKey i

variable {array array' : SparseArray α}

/-- One element is written or deleted. -/
theorem Holds.write (h : Holds m store array) (hkeys : m.keys.Apart) {i : ℕ} (hi : i < 2 ^ 64)
    (cell : Option α) {store' : KVStore Bytes Bytes} {cells' : KVStore ℕ α}
    (hstore : ∀ key, store'[key]? =
      if m.elemKey i = key then cell.map m.cdc.marshalBinary else store[key]?)
    (hcells : ∀ j, cells'[j]? = if i = j then cell else array.cells[j]?) :
    Holds m store' ⟨array.length, cells'⟩ where
  length := by
    rw [← h.length]
    exact number_congr (by rw [hstore, if_neg (lengthKey_ne_elemKey hkeys i).symm])
  elem j hj := by
    rw [hstore, hcells]
    by_cases hij : i = j
    · rw [if_pos (by rw [hij]), if_pos hij]
    · rw [if_neg (mt (elemKey_inj hi hj).mp hij), if_neg hij, h.elem j hj]
  other key bz hkey := by
    by_cases heq : m.elemKey i = key
    · exact .inr ⟨i, hi, heq.symm⟩
    · rw [hstore, if_neg heq] at hkey
      exact h.other key bz hkey

theorem Holds.set (h : Holds m store array) (hkeys : m.keys.Apart) {i : ℕ} (hi : i < 2 ^ 64)
    (v : α) : Holds m (m.set store i v) ⟨array.length, array.cells.insert i v⟩ :=
  h.write hkeys hi (some v) (fun _ => KVStore.getElem?_insert ..) fun _ => KVStore.getElem?_insert ..

theorem Holds.setLength (h : Holds m store array) (hkeys : m.keys.Apart) (n : ℕ) :
    Holds m (m.setNumber store m.keys.lengthKey n) ⟨n, array.cells⟩ where
  length := number_setNumber _ n
  elem i hi := by
    rw [setNumber, KVStore.getElem?_insert_of_ne _ _ (lengthKey_ne_elemKey hkeys i), h.elem i hi]
  other key bz hkey := by
    by_cases heq : m.keys.lengthKey = key
    · exact .inl heq.symm
    · rw [setNumber, KVStore.getElem?_insert_of_ne _ _ heq] at hkey
      exact h.other key bz hkey

theorem Holds.step (h : Holds m store array) (hkeys : m.keys.Apart) {call : ListCall α}
    (hstep : array.step call = some array') (hsmall : array'.length < 2 ^ 64) :
    ∃ store', call.run m store = .ok store' ∧ Holds m store' array' := by
  cases call with
  | push value =>
    cases hstep
    have hsmall : array.length + 1 < 2 ^ 64 := hsmall
    refine ⟨_, ?_, (h.set hkeys (by omega) value).setLength hkeys (array.length + 1)⟩
    rw [ListCall.run, Linear.push, h.length, ← Nat.mod_eq_of_lt hsmall]
    rfl
  | set index value =>
    rw [SparseArray.step] at hstep
    split_ifs at hstep with hindex
    cases hstep
    exact ⟨_, rfl, h.set hkeys (hindex.trans hsmall) value⟩
  | delete index =>
    rw [SparseArray.step] at hstep
    split_ifs at hstep with hindex
    cases hstep
    exact ⟨_, rfl, h.write hkeys (hindex.trans hsmall) none (fun _ => KVStore.getElem?_erase ..)
      fun _ => KVStore.getElem?_erase ..⟩

end Linear

namespace SparseArray

variable {α : Type} {array array' : SparseArray α}

/-- All cells are below the length. -/
def Bounded (array : SparseArray α) : Prop := ∀ i v, array.cells[i]? = some v → i < array.length

theorem step_facts (hbounded : array.Bounded) {call : ListCall α}
    (h : array.step call = some array') :
    array'.Bounded ∧ array'.length = array.length + if call.isPush then 1 else 0 := by
  cases call with
  | push value =>
    cases h
    refine ⟨fun i v hi => ?_, rfl⟩
    rw [KVStore.getElem?_insert] at hi
    split_ifs at hi with heq
    · exact heq ▸ Nat.lt_succ_self _
    · exact (hbounded i v hi).trans (Nat.lt_succ_self _)
  | set index value =>
    rw [step] at h
    split_ifs at h with hindex
    cases h
    refine ⟨fun i v hi => ?_, rfl⟩
    rw [KVStore.getElem?_insert] at hi
    split_ifs at hi with heq
    · exact heq ▸ hindex
    · exact hbounded i v hi
  | delete index =>
    rw [step] at h
    split_ifs at h with hindex
    cases h
    refine ⟨fun i v hi => ?_, rfl⟩
    rw [KVStore.getElem?_erase] at hi
    split_ifs at hi
    exact hbounded i v hi

theorem run_facts {calls : List (ListCall α)} (hbounded : array.Bounded)
    (h : calls.foldlM step array = some array') :
    array'.Bounded ∧ array'.length = array.length + calls.countP ListCall.isPush := by
  induction calls generalizing array with
  | nil =>
    cases h
    exact ⟨hbounded, rfl⟩
  | cons call calls ih =>
    rw [List.foldlM_cons] at h
    obtain ⟨middle, hstep, hrest⟩ := Option.bind_eq_some_iff.mp h
    obtain ⟨hmiddle, hlength⟩ := step_facts hbounded hstep
    obtain ⟨hbounded', hlength'⟩ := ih hmiddle hrest
    refine ⟨hbounded', ?_⟩
    rw [hlength', hlength, List.countP_cons]
    omega

end SparseArray

namespace Linear

variable {α : Type} {m : Linear α} {store : KVStore Bytes Bytes} {array array' : SparseArray α}

theorem Holds.run (h : Holds m store array) (hkeys : m.keys.Apart) (hbounded : array.Bounded)
    {calls : List (ListCall α)} (hcalls : calls.foldlM SparseArray.step array = some array')
    (hsmall : array'.length < 2 ^ 64) :
    ∃ store', calls.foldlM (ListCall.run m) store = .ok store' ∧ Holds m store' array' := by
  induction calls generalizing store array with
  | nil =>
    cases hcalls
    exact ⟨store, rfl, h⟩
  | cons call calls ih =>
    rw [List.foldlM_cons] at hcalls
    obtain ⟨middle, hstep, hrest⟩ := Option.bind_eq_some_iff.mp hcalls
    have hmiddle := (SparseArray.step_facts hbounded hstep).1
    have hlength := (SparseArray.run_facts hmiddle hrest).2
    obtain ⟨store₁, hrun, h₁⟩ := h.step hkeys hstep (by omega)
    obtain ⟨store₂, hruns, h₂⟩ := ih h₁ hmiddle hrest
    refine ⟨store₂, ?_, h₂⟩
    rw [List.foldlM_cons, hrun]
    exact hruns

theorem visit_elems (stop : List (ℕ × α) → Bool) (seen : List (ℕ × α)) {cells : List (ℕ × α)}
    (hsmall : ∀ cell ∈ cells, cell.1 < 2 ^ 64) :
    m.visit stop seen (cells.map fun cell => (m.elemKey cell.1, m.cdc.marshalBinary cell.2)) =
      .ok (takeUntil stop seen cells) := by
  induction cells generalizing seen with
  | nil => rfl
  | cons cell cells ih =>
    obtain ⟨i, v⟩ := cell
    rw [List.forall_mem_cons] at hsmall
    rw [List.map_cons, visit, mustUnmarshalBinary_eq_ok, takeUntil]
    dsimp only
    rw [indexOf_elemKey hsmall.1]
    dsimp only
    rw [ih _ hsmall.2]
    split_ifs <;> rfl

/-- `Iterate` sees the elements in the order of their indices. -/
theorem Holds.iterate (h : Holds m store array) (hbounded : array.Bounded)
    (hsmall : array.length < 2 ^ 64) (helem : [1] <+: m.keys.elemKey)
    (hlength : ¬ [1] <+: m.keys.lengthKey) (stop : List (ℕ × α) → Bool) :
    m.iterate store stop = .ok (takeUntil stop [] array.cells.toList) := by
  obtain ⟨top, htop⟩ := @exists_prefixEndBytes (some [1]) (by simp)
  have hcells : ∀ cell ∈ array.cells.toList, cell.1 < 2 ^ 64 := fun cell hcell =>
    (hbounded cell.1 cell.2 (KVStore.mem_toList.mp hcell)).trans hsmall
  have hpairs : Lists (· < ·) (InDomain (some [1]) top) store
      (array.cells.toList.map fun cell => (m.elemKey cell.1, m.cdc.marshalBinary cell.2)) := by
    refine ⟨?_, fun key bz => ⟨fun hin => ?_, ?_⟩⟩
    · rw [List.pairwise_map]
      refine (KVStore.toList_pairwise array.cells).imp_of_mem fun hcell hcell' hlt => ?_
      exact (elemKey_lt_iff (hcells _ hcell) (hcells _ hcell')).mpr hlt
    · obtain ⟨⟨i, v⟩, hcell, heq⟩ := List.mem_map.mp hin
      cases heq
      rw [inDomain_prefixEnd_iff htop, h.elem i (hcells _ hcell), KVStore.mem_toList.mp hcell]
      exact ⟨rfl, helem.trans (List.prefix_append _ _)⟩
    · rintro ⟨hkey, hdomain⟩
      rw [inDomain_prefixEnd_iff htop] at hdomain
      obtain rfl | ⟨i, hi, rfl⟩ := h.other key bz hkey
      · exact absurd hdomain hlength
      · rw [h.elem i hi, Option.map_eq_some_iff] at hkey
        obtain ⟨v, hv, rfl⟩ := hkey
        exact List.mem_map.mpr ⟨(i, v), KVStore.mem_toList.mpr hv, rfl⟩
  rw [Linear.iterate, kvStorePrefixIterator, htop]
  dsimp only
  rw [(lists_toList (InDomain (some [1]) top) store).unique hpairs, visit_elems stop [] hcells]

/-- If the keys of the elements begin with the byte 1 and the key of the length does not, the list
is a sparse array. -/
theorem list_is_sparse_array (m : Linear α) (hkeys : m.keys.Apart)
    (helem : [1] <+: m.keys.elemKey) (hlength : ¬ [1] <+: m.keys.lengthKey)
    {calls : List (ListCall α)} (hcalls : calls.foldlM SparseArray.step ⟨0, ∅⟩ = some array)
    (hpushes : calls.countP ListCall.isPush < 2 ^ 64) :
    ∃ store, calls.foldlM (ListCall.run m) ∅ = .ok store ∧
      m.len store = .ok (calls.countP ListCall.isPush) ∧
      (∀ i < 2 ^ 64, m.get store i = array.cells[i]?) ∧
      ∀ stop, m.iterate store stop = .ok (takeUntil stop [] array.cells.toList) := by
  have hempty : (⟨0, ∅⟩ : SparseArray α).Bounded := fun i v hi => by simp at hi
  have hholds : Holds m ∅ ⟨0, ∅⟩ := ⟨by simp [len, number], by simp, by simp⟩
  obtain ⟨hbounded, hcount⟩ := SparseArray.run_facts hempty hcalls
  rw [zero_add] at hcount
  rw [← hcount] at hpushes ⊢
  obtain ⟨store, hrun, h⟩ := hholds.run hkeys hempty hcalls hpushes
  refine ⟨store, hrun, h.length, fun i hi => ?_, h.iterate hbounded hpushes helem hlength⟩
  rw [get, h.elem i hi]
  cases array.cells[i]? with
  | none => rfl
  | some v => exact m.cdc.unmarshal_marshal v

/-- Numbers in unary. -/
def unary : BinaryCodec ℕ where
  marshalBinary n := List.replicate (n + 1) 0
  unmarshalBinary
    | [] => none
    | _ :: rest => some rest.length
  unmarshal_marshal n := by simp [List.replicate_succ]

theorem list_is_sparse_array_example : ∃ store,
    [ListCall.push 7, .push 8, .delete 0].foldlM
      (ListCall.run (Linear.mk unary unary defaultLinearKeys)) ∅ = .ok store ∧
    (Linear.mk unary unary defaultLinearKeys).iterate store (fun _ => false) = .ok [(1, 8)] := by
  obtain ⟨store, hrun, -, -, hiterate⟩ :=
    list_is_sparse_array (Linear.mk unary unary defaultLinearKeys) (by decide) (by decide) (by decide)
      (show [ListCall.push 7, .push 8, .delete 0].foldlM SparseArray.step ⟨0, ∅⟩ =
        some ⟨2, ((∅ : KVStore ℕ ℕ).insert 0 7 |>.insert 1 8).erase 0⟩ from rfl) (by decide)
  refine ⟨store, hrun, (hiterate _).trans ?_⟩
  decide +kernel

/-- With another key for the elements `Iterate` sees none of them. -/
theorem iterate_misses_elements :
    (Linear.mk unary unary ⟨[5], [6], [7]⟩).keys.Apart ∧
      ((ListCall.push 7).run (Linear.mk unary unary ⟨[5], [6], [7]⟩) ∅ >>= fun store =>
        (Linear.mk unary unary ⟨[5], [6], [7]⟩).iterate store fun _ => false) = .ok [] ∧
      (SparseArray.step ⟨0, ∅⟩ (ListCall.push 7)).map (fun array => array.cells.toList) =
        some [(0, 7)] := by
  decide +kernel

/-! ## The queue -/

/-- What the store of a queue holds if its first element has the index `top`. -/
structure Queued (m : Linear α) (store : KVStore Bytes Bytes) (top : ℕ) (queue : List α) : Prop where
  top_eq : m.getTop store = .ok top
  length : m.len store = .ok (top + queue.length)
  small : top + queue.length < 2 ^ 64
  elem : ∀ j v, queue[j]? = some v →
    store[m.elemKey (top + j)]? = some (m.cdc.marshalBinary v)

variable {top : ℕ} {queue : List α} {stop : List α → Bool}

theorem get_of_stored {i : ℕ} {v : α} (h : store[m.elemKey i]? = some (m.cdc.marshalBinary v)) :
    m.get store i = some v := by
  rw [get, h]
  exact m.cdc.unmarshal_marshal v

theorem Queued.push (h : Queued m store top queue) (hkeys : m.keys.Apart) (v : α)
    (hsmall : top + queue.length + 1 < 2 ^ 64) :
    ∃ store', m.push store v = .ok store' ∧ Queued m store' top (queue ++ [v]) := by
  refine ⟨m.setNumber (m.set store (top + queue.length) v) m.keys.lengthKey
      (top + queue.length + 1), ?_, ?_, ?_, by simpa [← add_assoc] using hsmall,
    fun j w hj => ?_⟩
  · rw [Linear.push, h.length, ← Nat.mod_eq_of_lt hsmall]
    rfl
  · rw [← h.top_eq]
    refine number_congr ?_
    rw [setNumber, KVStore.getElem?_insert_of_ne _ _ (lengthKey_ne_topKey hkeys), set,
      KVStore.getElem?_insert_of_ne _ _ (topKey_ne_elemKey hkeys _).symm]
  · rw [List.length_append, List.length_singleton, ← add_assoc]
    exact number_setNumber _ _
  · have hlt : j < (queue ++ [v]).length := (List.getElem?_eq_some_iff.mp hj).1
    rw [List.length_append, List.length_singleton] at hlt
    rw [setNumber, KVStore.getElem?_insert_of_ne _ _ (lengthKey_ne_elemKey hkeys _), set]
    by_cases hlast : j = queue.length
    · subst hlast
      obtain rfl : v = w := by simpa using hj
      rw [KVStore.getElem?_insert_self]
    · rw [KVStore.getElem?_insert_of_ne]
      · rw [List.getElem?_append_left (by omega)] at hj
        exact h.elem j w hj
      · rw [Ne, elemKey_inj (by omega) (by omega)]
        omega

theorem Queued.pop {v : α} (h : Queued m store top (v :: queue)) (hkeys : m.keys.Apart) :
    ∃ store', m.pop store = .ok store' ∧ Queued m store' (top + 1) queue := by
  have hsmall := h.small
  rw [List.length_cons] at hsmall
  refine ⟨m.setTop (m.delete store top) (top + 1), ?_, number_setNumber _ _, ?_, by omega,
    fun j w hj => ?_⟩
  · rw [Linear.pop, h.top_eq, ← Nat.mod_eq_of_lt (show top + 1 < 2 ^ 64 by omega)]
    rfl
  · rw [show top + 1 + queue.length = top + (v :: queue).length by simp; omega, ← h.length]
    refine number_congr ?_
    rw [setTop, setNumber, KVStore.getElem?_insert_of_ne _ _ (lengthKey_ne_topKey hkeys).symm,
      delete, KVStore.getElem?_erase_of_ne _ (lengthKey_ne_elemKey hkeys _).symm]
  · have hlt : j < queue.length := (List.getElem?_eq_some_iff.mp hj).1
    rw [setTop, setNumber, KVStore.getElem?_insert_of_ne _ _ (topKey_ne_elemKey hkeys _), delete,
      KVStore.getElem?_erase_of_ne, add_assoc, add_comm 1]
    · exact h.elem (j + 1) w hj
    · rw [Ne, elemKey_inj (by omega) (by omega)]
      omega

theorem takeUntil_goes_on {seen : List α}
    (hgo : ∀ n < queue.length, stop (seen ++ queue.take (n + 1)) = false) :
    takeUntil stop seen queue = seen ++ queue := by
  induction queue generalizing seen with
  | nil => simp [takeUntil]
  | cons v queue ih =>
    have hfirst := hgo 0 (by simp)
    rw [takeUntil, if_neg (by simpa using hfirst), ih, List.append_assoc, List.singleton_append]
    intro n hn
    simpa using hgo (n + 1) (by simpa using hn)

/-- If the continuation does not ask to stop, the loop deletes all elements and ends behind them. -/
theorem flushFrom_goes_on {i : ℕ} {seen : List α}
    (helem : ∀ j v, queue[j]? = some v → store[m.elemKey (i + j)]? = some (m.cdc.marshalBinary v))
    (hsmall : i + queue.length < 2 ^ 64)
    (hgo : ∀ n < queue.length, stop (seen ++ queue.take (n + 1)) = false) :
    ∃ store', m.flushFrom stop i seen store queue.length =
        .ok (seen ++ queue, store', i + queue.length) ∧
      ∀ key, (∀ j, m.elemKey j ≠ key) → store'[key]? = store[key]? := by
  induction queue generalizing i seen store with
  | nil => exact ⟨store, by simp [flushFrom], fun _ _ => rfl⟩
  | cons v queue ih =>
    rw [List.length_cons] at hsmall
    have hget : m.get store i = some v := get_of_stored (helem 0 v rfl)
    have hfirst := hgo 0 (by simp)
    have hnext : ∀ n < queue.length, stop ((seen ++ [v]) ++ queue.take (n + 1)) = false := by
      intro n hn
      simpa using hgo (n + 1) (by simpa using hn)
    obtain ⟨store', hloop, hframe⟩ := @ih (m.delete store i) (i + 1) (seen ++ [v]) (by
      intro j w hj
      have hlt : j < queue.length := (List.getElem?_eq_some_iff.mp hj).1
      rw [delete, KVStore.getElem?_erase_of_ne, add_assoc, add_comm 1]
      · exact helem (j + 1) w hj
      · rw [Ne, elemKey_inj (by omega) (by omega)]
        omega) (by omega) hnext
    refine ⟨store', ?_, fun key hkey => ?_⟩
    · rw [List.length_cons, flushFrom, hget]
      dsimp only
      rw [if_neg (by simpa using hfirst), hloop, List.append_assoc, List.singleton_append, add_assoc,
        add_comm 1]
    · rw [hframe key hkey, delete, KVStore.getElem?_erase_of_ne _ (hkey i)]

theorem Queued.flush (h : Queued m store top queue) (hkeys : m.keys.Apart)
    (hgo : ∀ n < queue.length, stop (queue.take (n + 1)) = false) :
    ∃ store', m.flush store stop = .ok (queue, store') ∧
      Queued m store' (top + queue.length) [] := by
  obtain ⟨store', hloop, hframe⟩ := @flushFrom_goes_on _ m _ queue stop top [] h.elem h.small hgo
  refine ⟨m.setTop store' (top + queue.length), ?_, number_setNumber _ _, ?_, h.small, by simp⟩
  · rw [Linear.flush, h.top_eq, h.length]
    simp only [bind, Except.bind, pure, Except.pure, Nat.add_sub_cancel_left, hloop]
    rfl
  · rw [List.length_nil, add_zero, ← h.length]
    refine number_congr ?_
    rw [setTop, setNumber, KVStore.getElem?_insert_of_ne _ _ (lengthKey_ne_topKey hkeys).symm]
    exact hframe _ fun j => (lengthKey_ne_elemKey hkeys j).symm

theorem Queued.step (h : Queued m store top queue) (hkeys : m.keys.Apart) {call : QueueCall α}
    (hallowed : call.Allowed queue) (hgo : call.GoesOn queue)
    (hsmall : call.isPush = true → top + queue.length + 1 < 2 ^ 64) :
    ∃ store' top', call.run m store = .ok ((call.onQueue queue).1, store') ∧
      Queued m store' top' (call.onQueue queue).2 ∧
      top' + (call.onQueue queue).2.length =
        top + queue.length + if call.isPush then 1 else 0 := by
  cases call with
  | push value =>
    obtain ⟨store', hrun, h'⟩ := h.push hkeys value (hsmall rfl)
    refine ⟨store', top, ?_, h', by simp [QueueCall.onQueue, QueueCall.isPush, add_assoc]⟩
    rw [QueueCall.run, hrun]
    rfl
  | peek =>
    obtain ⟨v, rest, rfl⟩ := List.exists_cons_of_ne_nil hallowed
    have hget : m.get store top = some v := get_of_stored (h.elem 0 v rfl)
    refine ⟨store, top, ?_, h, rfl⟩
    rw [QueueCall.run, peek, h.top_eq]
    change Except.ok (QueueAnswer.elem (m.get store top), store) = _
    rw [hget]
    rfl
  | pop =>
    obtain ⟨v, rest, rfl⟩ := List.exists_cons_of_ne_nil hallowed
    obtain ⟨store', hrun, h'⟩ := h.pop hkeys
    refine ⟨store', top + 1, ?_, h', ?_⟩
    · rw [QueueCall.run, hrun]
      rfl
    · simp [QueueCall.onQueue, QueueCall.isPush]
      omega
  | isEmpty =>
    refine ⟨store, top, ?_, h, rfl⟩
    rw [QueueCall.run, isEmpty, h.top_eq, h.length]
    cases queue <;> simp [QueueCall.onQueue, bind, Except.bind, pure, Except.pure]
  | flush stop =>
    obtain ⟨store', hrun, h'⟩ := h.flush hkeys hgo
    have hall : takeUntil stop [] queue = queue := takeUntil_goes_on hgo
    have hqueue : (QueueCall.onQueue queue (.flush stop)) = (.passed queue, []) := by
      rw [QueueCall.onQueue, hall, List.drop_length]
    rw [hqueue]
    refine ⟨store', top + queue.length, ?_, h', by simp [QueueCall.isPush]⟩
    rw [QueueCall.run, hrun]
    rfl

theorem Queued.run (h : Queued m store top queue) (hkeys : m.keys.Apart)
    {calls : List (QueueCall α)} (hcalls : GoOn queue calls)
    (hsmall : top + queue.length + calls.countP QueueCall.isPush < 2 ^ 64) :
    outputs (QueueCall.run m) store calls =
      outputs (fun queue call => .ok (QueueCall.onQueue queue call)) queue calls := by
  induction calls generalizing store top queue with
  | nil => rfl
  | cons call calls ih =>
    obtain ⟨hallowed, hgo, hrest⟩ := hcalls
    rw [List.countP_cons] at hsmall
    obtain ⟨store', top', hrun, h', hlength⟩ := h.step hkeys hallowed hgo (by
      intro hpush
      rw [if_pos hpush] at hsmall
      omega)
    rw [outputs, outputs, hrun]
    dsimp only
    rw [ih h' hrest (by omega)]

/-- As long as no continuation asks to stop, the answers are those of a queue. -/
theorem queue_is_fifo (m : Linear α) (hkeys : m.keys = defaultLinearKeys)
    {calls : List (QueueCall α)} (hcalls : GoOn [] calls)
    (hpushes : calls.countP QueueCall.isPush < 2 ^ 64) :
    outputs (QueueCall.run m) ∅ calls =
      outputs (fun queue call => .ok (QueueCall.onQueue queue call)) [] calls := by
  have hapart : m.keys.Apart := by
    rw [hkeys]
    decide
  have hempty : Queued m ∅ 0 [] :=
    ⟨by simp [getTop, number], by simp [len, number], by norm_num, by simp⟩
  exact hempty.run hapart hcalls (by simpa using hpushes)

theorem queue_is_fifo_example :
    outputs (QueueCall.run (Linear.mk unary unary defaultLinearKeys)) ∅
      [.push 7, .push 8, .pop, .flush fun _ => false, .isEmpty] =
    [.ok .done, .ok .done, .ok .done, .ok (.passed [8]), .ok (.empty true)] :=
  (queue_is_fifo _ rfl (by simp [GoOn, QueueCall.Allowed, QueueCall.GoesOn, QueueCall.onQueue])
    (by decide)).trans rfl

/-- After a `Flush` that stops at the first of two elements there is nothing to `Peek` at. -/
theorem flush_stops_too_early :
    outputs (QueueCall.run (Linear.mk unary unary defaultLinearKeys)) ∅
      [.push 7, .push 8, .flush fun _ => true, .peek] =
    [.ok .done, .ok .done, .ok (.passed [7]), .ok (.elem none)] ∧
    outputs (fun queue call => .ok (QueueCall.onQueue queue call)) []
      [.push 7, .push 8, .flush fun _ => true, .peek] =
    ([.ok .done, .ok .done, .ok (.passed [7]), .ok (.elem (some 8))] :
      List (Except LinearPanic (QueueAnswer ℕ))) := by
  decide +kernel

end Linear

end Tepleton
