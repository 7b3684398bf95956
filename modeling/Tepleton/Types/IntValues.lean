import Tepleton.Types.Int

/-!
# The values of `Int` and `Uint` a program can get hold of

An `Int` is a pointer to a `big.Int`.  Constructors and operations make new ones, apart from
`NewIntFromBigInt` and `NewUintFromBigInt`, which keep the pointer they are given.  Decoding writes
through the pointer of its receiver, and does not look at the bound.  So all values are in range as
long as what is decoded is, for every value that shares the receiver's pointer.
-/

namespace Tepleton

open Lib

/-- `big.Int.SetString` in base 0, which is also what `UnmarshalText` reads, and the strings of
JSON. -/
structure TextFormat where
  setString : Bytes → Option ℤ
  jsonString : Bytes → Option Bytes

/-- The two bounded types. -/
inductive IntKind
  | int
  | uint
  deriving DecidableEq, Repr

namespace IntKind

/-- The range of a type. -/
def Range : IntKind → ℤ → Prop
  | int => IntRange
  | uint => UintRange

/-- The condition on which a constructor refuses a `big.Int`. -/
def Refuses : IntKind → ℤ → Prop
  | int => fun x => 255 < bitLen x
  | uint => UintOverflows

instance : (kind : IntKind) → (x : ℤ) → Decidable (kind.Range x)
  | int, x => inferInstanceAs (Decidable (IntRange x))
  | uint, x => inferInstanceAs (Decidable (UintRange x))

instance : (kind : IntKind) → (x : ℤ) → Decidable (kind.Refuses x)
  | int, x => inferInstanceAs (Decidable (255 < bitLen x))
  | uint, x => inferInstanceAs (Decidable (UintOverflows x))

/-- The panic of `NewIntFromBigInt` and `NewUintFromBigInt`. -/
def bigIntPanic : IntKind → Panic
  | int => .intOutOfBound
  | uint => .uintOverflow

/-- The panic of `NewIntWithDecimal` and `NewUintWithDecimal`. -/
def decimalPanic : IntKind → Panic
  | int => .intWithDecimalOutOfBound
  | uint => .uintWithDecimalOutOfBound

end IntKind

/-- The operations with two operands. -/
inductive Arith
  | add
  | sub
  | mul
  | div
  deriving DecidableEq, Repr

/-- The method of a type. -/
def Arith.apply : Arith → IntKind → ℤ → ℤ → Outcome ℤ
  | add, .int => addInt
  | sub, .int => subInt
  | mul, .int => mulInt
  | div, .int => divInt
  | add, .uint => addUint
  | sub, .uint => subUint
  | mul, .uint => mulUint
  | div, .uint => divUint

/-- The `big.Int`s a program has allocated, by address, and its variables of both types, each a
pointer or `nil`. -/
structure Memory where
  heap : List ℤ
  values : IntKind → List (Option ℕ)
  allocated : ∀ kind p, some p ∈ values kind → p < heap.length

namespace Memory

/-- Nothing is allocated. -/
def empty : Memory := ⟨[], fun _ => [], by simp⟩

/-- A new `big.Int`, at the end of the heap. -/
def alloc (m : Memory) (x : ℤ) : Memory where
  heap := m.heap ++ [x]
  values := m.values
  allocated kind p hp := by
    have := m.allocated kind p hp
    simp only [List.length_append, List.length_singleton]
    omega

/-- Writing through a pointer. -/
def write (m : Memory) (p : ℕ) (x : ℤ) : Memory where
  heap := m.heap.set p x
  values := m.values
  allocated kind q hq := by
    rw [List.length_set]
    exact m.allocated kind q hq

/-- A new variable. -/
def push (m : Memory) (kind : IntKind) (v : Option ℕ) (hv : ∀ p, v = some p → p < m.heap.length) :
    Memory where
  heap := m.heap
  values := Function.update m.values kind (m.values kind ++ [v])
  allocated kind' p hp := by
    by_cases hkind : kind' = kind
    · subst hkind
      rw [Function.update_self, List.mem_append, List.mem_singleton] at hp
      rcases hp with hp | hp
      · exact m.allocated kind' p hp
      · exact hv p hp.symm
    · rw [Function.update_of_ne hkind] at hp
      exact m.allocated kind' p hp

/-- A variable that was `nil` gets a pointer. -/
def point (m : Memory) (kind : IntKind) (index p : ℕ) (hp : p < m.heap.length) : Memory where
  heap := m.heap
  values := Function.update m.values kind ((m.values kind).set index (some p))
  allocated kind' q hq := by
    by_cases hkind : kind' = kind
    · subst hkind
      rw [Function.update_self] at hq
      rcases List.mem_or_eq_of_mem_set hq with hq | hq
      · exact m.allocated kind' q hq
      · cases hq
        exact hp
    · rw [Function.update_of_ne hkind] at hq
      exact m.allocated kind' q hq

theorem length_alloc (m : Memory) (x : ℤ) : m.heap.length < (m.alloc x).heap.length := by
  simp [alloc]

/-- A new variable with a new `big.Int`. -/
def make (m : Memory) (kind : IntKind) (x : ℤ) : Memory :=
  (m.alloc x).push kind (some m.heap.length) fun _ hp => Option.some.inj hp ▸ m.length_alloc x

/-- A new variable that is `nil`. -/
def makeNil (m : Memory) (kind : IntKind) : Memory := m.push kind none (by simp)

/-- The number a variable stands for.  Variables are kept in a slice for each type. -/
def load (m : Memory) (kind : IntKind) (index : ℕ) : Outcome ℤ :=
  match (m.values kind)[index]? with
  | none => .error (.panic .indexOutOfRange)
  | some none => .error (.panic .nilDereference)
  | some (some p) => .ok (m.heap.getD p 0)

/-- A Go error of a decoder, of which only the fact is kept. -/
def errUnmarshal : SdkError := ⟨1, "cannot unmarshal"⟩

/-- `UnmarshalText` into a variable: through its pointer, or into a new `big.Int` if it is `nil`. -/
def unmarshalText (format : TextFormat) (m : Memory) (kind : IntKind) (index : ℕ) (text : Bytes) :
    Outcome Memory :=
  match (m.values kind)[index]?, format.setString text with
  | none, _ => .error (.panic .indexOutOfRange)
  | _, none => .error (.error errUnmarshal)
  | some none, some x => .ok ((m.alloc x).point kind index m.heap.length (m.length_alloc x))
  | some (some p), some x => .ok (m.write p x)

end Memory

/-- What a program can do with `Int` and `Uint`: the constructors, the operations and the decoders.
Variables are given by their index, a `*big.Int` by its address. -/
inductive IntOp
  | newBigInt (x : ℤ)
  | declare (kind : IntKind)
  | newInt (n : Int64)
  | newUint (n : UInt64)
  | fromBigInt (kind : IntKind) (p : ℕ)
  | fromString (kind : IntKind) (s : Bytes)
  | withDecimal (kind : IntKind) (n : Int64) (dec : ℤ)
  | zero (kind : IntKind)
  | one (kind : IntKind)
  | bigInt (kind : IntKind) (index : ℕ)
  | arith (op : Arith) (kind : IntKind) (index index2 : ℕ)
  | arithRawInt (op : Arith) (index : ℕ) (n : Int64)
  | arithRawUint (op : Arith) (index : ℕ) (n : UInt64)
  | neg (index : ℕ)
  | unmarshalAmino (kind : IntKind) (index : ℕ) (text : Bytes)
  | unmarshalJSON (kind : IntKind) (index : ℕ) (bz : Bytes)

/-- One call. -/
def intStep (format : TextFormat) (m : Memory) : IntOp → Outcome Memory
  | .newBigInt x => .ok (m.alloc x)
  | .declare kind => .ok (m.makeNil kind)
  | .newInt n => .ok (m.make .int (newInt n))
  | .newUint n => .ok (m.make .uint (newUint n))
  | .fromBigInt kind p =>
    if hp : p < m.heap.length then
      if kind.Refuses (m.heap.getD p 0) then .error (.panic kind.bigIntPanic)
      else .ok (m.push kind (some p) fun _ hq => Option.some.inj hq ▸ hp)
    else .error (.panic .nilDereference)
  | .fromString kind s =>
    -- a text that is refused gives `Int{}` and `false`
    match format.setString s with
    | none => .ok (m.makeNil kind)
    | some x => if kind.Refuses x then .ok (m.makeNil kind) else .ok (m.make kind x)
  | .withDecimal kind n dec =>
    -- `newIntegerWithDecimal` returns a nil pointer, on which `BitLen` and `Sign` panic
    if dec < 0 then .error (.panic .nilDereference)
    else if kind.Refuses (n.toInt * 10 ^ dec.toNat) then .error (.panic kind.decimalPanic)
    else .ok (m.make kind (n.toInt * 10 ^ dec.toNat))
  | .zero kind => .ok (m.make kind 0)
  | .one kind => .ok (m.make kind 1)
  | .bigInt kind index => do
      let x ← m.load kind index
      return m.alloc x
  | .arith op kind index index2 => do
      let x ← m.load kind index
      let x2 ← m.load kind index2
      let result ← op.apply kind x x2
      return m.make kind result
  | .arithRawInt op index n => do
      let x ← m.load .int index
      let result ← op.apply .int x (newInt n)
      return m.make .int result
  | .arithRawUint op index n => do
      let x ← m.load .uint index
      let result ← op.apply .uint x (newUint n)
      return m.make .uint result
  | .neg index => do
      let x ← m.load .int index
      return m.make .int (negInt x)
  | .unmarshalAmino kind index text => m.unmarshalText format kind index text
  | .unmarshalJSON kind index bz =>
    match format.jsonString bz with
    | none => .error (.error Memory.errUnmarshal)
    | some text => m.unmarshalText format kind index text

/-! ## Values in range -/

/-- All values are in the range of their type. -/
def Memory.Sound (m : Memory) : Prop :=
  ∀ kind p, some p ∈ m.values kind → kind.Range (m.heap.getD p 0)

/-- A number may be decoded into a variable: it is in range for it and for every variable that shares
its pointer. -/
def Memory.Admits (m : Memory) (kind : IntKind) (index : ℕ) (x : ℤ) : Prop :=
  kind.Range x ∧ ∀ p, (m.values kind)[index]? = some (some p) →
    ∀ kind', some p ∈ m.values kind' → kind'.Range x

/-- The number that a call decodes, and the variable it is decoded into. -/
def decoded (format : TextFormat) : IntOp → Option (IntKind × ℕ × ℤ)
  | .unmarshalAmino kind index text => do
      let x ← format.setString text
      return (kind, index, x)
  | .unmarshalJSON kind index bz => do
      let text ← format.jsonString bz
      let x ← format.setString text
      return (kind, index, x)
  | _ => none

/-- What is decoded in a call, if anything, may be. -/
def DecodesInRange (format : TextFormat) (m : Memory) (op : IntOp) : Prop :=
  ∀ kind index x, decoded format op = some (kind, index, x) → m.Admits kind index x

variable {format : TextFormat} {m : Memory} {op : IntOp} {kind : IntKind} {x : ℤ}

theorem decodesInRange_of_none (h : decoded format op = none) : DecodesInRange format m op := by
  intro kind index x hdecoded
  rw [h] at hdecoded
  cases hdecoded

theorem decodesInRange_iff_of_some {index : ℕ} (h : decoded format op = some (kind, index, x)) :
    DecodesInRange format m op ↔ m.Admits kind index x := by
  constructor
  · intro hall
    exact hall kind index x h
  · intro hadmits kind' index' x' h'
    cases h.symm.trans h'
    exact hadmits

instance (m : Memory) (kind : IntKind) (index : ℕ) (x : ℤ) : Decidable (m.Admits kind index x) :=
  decidable_of_iff (kind.Range x ∧ ∀ v ∈ (m.values kind)[index]?, ∀ p ∈ v,
    ∀ kind' ∈ [IntKind.int, .uint], some p ∈ m.values kind' → kind'.Range x) <| by
      refine and_congr_right fun _ => ⟨fun h p hp kind' => ?_, fun h v hv p hp kind' _ => ?_⟩
      · exact h (some p) hp p rfl kind' (by cases kind' <;> simp)
      · exact h p (hp ▸ hv) kind'

instance (format : TextFormat) (m : Memory) (op : IntOp) : Decidable (DecodesInRange format m op) :=
  match h : decoded format op with
  | none => isTrue (decodesInRange_of_none h)
  | some (_, _, _) => decidable_of_iff' _ (decodesInRange_iff_of_some h)

theorem IntKind.refuses_iff : kind.Refuses x ↔ ¬ kind.Range x := by
  cases kind with
  | int =>
    rw [Refuses, Range, ← bitLen_le_255_iff, not_le]
  | uint => exact uintOverflows_iff

theorem Arith.apply_range {op : Arith} {x2 result : ℤ} (hx : kind.Range x) (hx2 : kind.Range x2)
    (h : op.apply kind x x2 = .ok result) : kind.Range result := by
  cases kind with
  | int =>
    cases op with
    | add => exact (exactArithmetic_int.add hx hx2).range h
    | sub => exact (exactArithmetic_int.sub hx hx2).range h
    | mul => exact (exactArithmetic_int.mul hx hx2).range h
    | div => exact exactArithmetic_int.div_range hx hx2 h
  | uint =>
    cases op with
    | add => exact (exactArithmetic_uint.add hx hx2).range h
    | sub => exact (exactArithmetic_uint.sub hx hx2).range h
    | mul => exact (exactArithmetic_uint.mul hx hx2).range h
    | div => exact exactArithmetic_uint.div_range hx hx2 h

namespace Memory

variable {m : Memory} {kind : IntKind} {index : ℕ} {x : ℤ}

variable {p : ℕ}

theorem getD_alloc (hp : p < m.heap.length) :
    (m.alloc x).heap.getD p 0 = m.heap.getD p 0 := List.getD_append _ _ _ _ hp

theorem getD_alloc_new : (m.alloc x).heap.getD m.heap.length 0 = x := by
  simp [alloc]

theorem Sound.alloc (h : m.Sound) (x : ℤ) : (m.alloc x).Sound := by
  intro kind p hp
  rw [getD_alloc (m.allocated kind p hp)]
  exact h kind p hp

theorem mem_push {v : Option ℕ} {hv : ∀ p, v = some p → p < m.heap.length} {kind' : IntKind} : some
    p ∈ (m.push kind v hv).values kind' ↔
      some p ∈ m.values kind' ∨ kind' = kind ∧ v = some p := by
  unfold push
  by_cases hkind : kind' = kind
  · subst hkind
    simp [eq_comm]
  · simp [hkind]

theorem Sound.push_iff (h : m.Sound) {v : Option ℕ}
    {hv : ∀ p, v = some p → p < m.heap.length} :
    (m.push kind v hv).Sound ↔ ∀ p, v = some p → kind.Range (m.heap.getD p 0) := by
  constructor
  · intro hpush p hp
    exact hpush kind p (mem_push.mpr (.inr ⟨rfl, hp⟩))
  · intro hrange kind' p hp
    rcases mem_push.mp hp with hp | ⟨rfl, hnew⟩
    · exact h kind' p hp
    · exact hrange p hnew

theorem Sound.make_iff (h : m.Sound) : (m.make kind x).Sound ↔ kind.Range x := by
  unfold make
  rw [(h.alloc x).push_iff]
  simp only [Option.some.injEq, forall_eq', getD_alloc_new]

theorem Sound.makeNil (h : m.Sound) : (m.makeNil kind).Sound := by
  unfold Memory.makeNil
  rw [h.push_iff]
  simp

theorem mem_point {q : ℕ} {hp : p < m.heap.length} {kind' : IntKind}
    (h : some q ∈ (m.point kind index p hp).values kind') :
    some q ∈ m.values kind' ∨ kind' = kind ∧ q = p := by
  unfold point at h
  dsimp only at h
  by_cases hkind : kind' = kind
  · subst hkind
    rw [Function.update_self] at h
    rcases List.mem_or_eq_of_mem_set h with h | h
    · exact .inl h
    · exact .inr ⟨rfl, Option.some.inj h⟩
  · rw [Function.update_of_ne hkind] at h
    exact .inl h

theorem mem_point_self {hp : p < m.heap.length} (hindex : index < (m.values kind).length) :
    some p ∈ (m.point kind index p hp).values kind := by
  unfold point
  dsimp only
  rw [Function.update_self]
  exact List.mem_set hindex _

theorem Sound.point_iff (h : m.Sound) (hnil : (m.values kind)[index]? = some none) :
    ((m.alloc x).point kind index m.heap.length (m.length_alloc x)).Sound ↔ kind.Range x := by
  have hindex : index < (m.values kind).length := (List.getElem?_eq_some_iff.mp hnil).1
  constructor
  · intro hpoint
    have hrange : kind.Range ((m.alloc x).heap.getD m.heap.length 0) :=
      hpoint kind _ (mem_point_self hindex)
    rwa [getD_alloc_new] at hrange
  · intro hrange kind' q hq
    show kind'.Range ((m.alloc x).heap.getD q 0)
    rcases mem_point hq with hold | ⟨rfl, rfl⟩
    · exact h.alloc x kind' q hold
    · rwa [getD_alloc_new]

theorem Sound.write_iff (h : m.Sound) (hp : p < m.heap.length) :
    (m.write p x).Sound ↔ ∀ kind', some p ∈ m.values kind' → kind'.Range x := by
  have hself : (m.write p x).heap.getD p 0 = x := by simp [write, hp]
  constructor
  · intro hwrite kind' hmem
    have hrange := hwrite kind' p hmem
    rwa [hself] at hrange
  · intro hrange kind' q hq
    by_cases hqp : q = p
    · subst hqp
      rw [hself]
      exact hrange kind' hq
    · have hother : (m.write p x).heap.getD q 0 = m.heap.getD q 0 := by
        simp [write, List.getElem?_set_ne (Ne.symm hqp)]
      rw [hother]
      exact h kind' q hq

theorem Sound.load (h : m.Sound) (hload : m.load kind index = .ok x) : kind.Range x := by
  unfold Memory.load at hload
  split at hload
  · cases hload
  · cases hload
  · rename_i p hp
    cases hload
    exact h kind p (List.mem_of_getElem? hp)

theorem unmarshalText_eq_ok {format : TextFormat} {text : Bytes} {m' : Memory}
    (h : m.unmarshalText format kind index text = .ok m') :
    ∃ x, format.setString text = some x ∧
      ((m.values kind)[index]? = some none ∧
          m' = (m.alloc x).point kind index m.heap.length (m.length_alloc x) ∨
        ∃ p, (m.values kind)[index]? = some (some p) ∧ m' = m.write p x) := by
  unfold unmarshalText at h
  split at h
  · cases h
  · cases h
  · rename_i x hnil hx
    cases h
    exact ⟨x, hx, .inl ⟨hnil, rfl⟩⟩
  · rename_i p x hp hx
    cases h
    exact ⟨x, hx, .inr ⟨p, hp, rfl⟩⟩

theorem Sound.unmarshalText_iff {format : TextFormat} {text : Bytes} {m' : Memory} (h : m.Sound)
    (hdecode : m.unmarshalText format kind index text = .ok m') :
    ∃ x, format.setString text = some x ∧ (m'.Sound ↔ m.Admits kind index x) := by
  obtain ⟨x, htext, ⟨hnil, rfl⟩ | ⟨p, hp, rfl⟩⟩ := unmarshalText_eq_ok hdecode
  · refine ⟨x, htext, ?_⟩
    rw [h.point_iff hnil]
    simp [Admits, hnil]
  · have hmem := List.mem_of_getElem? hp
    refine ⟨x, htext, ?_⟩
    rw [h.write_iff (m.allocated kind p hmem)]
    simp only [Admits, hp, Option.some.injEq, forall_eq']
    exact ⟨fun hall => ⟨hall kind hmem, hall⟩, And.right⟩

end Memory

/-- One call keeps all values in range exactly if what it decodes is. -/
theorem intStep_sound_iff {m' : Memory} (h : m.Sound) (hstep : intStep format m op = .ok m') :
    m'.Sound ↔ DecodesInRange format m op := by
  cases op with
  | newBigInt x =>
    cases hstep
    exact iff_of_true (h.alloc x) (decodesInRange_of_none rfl)
  | declare kind =>
    cases hstep
    exact iff_of_true h.makeNil (decodesInRange_of_none rfl)
  | newInt n =>
    cases hstep
    exact iff_of_true (h.make_iff.mpr (intRange_newInt n)) (decodesInRange_of_none rfl)
  | newUint n =>
    cases hstep
    exact iff_of_true (h.make_iff.mpr (uintRange_newUint n)) (decodesInRange_of_none rfl)
  | fromBigInt kind p =>
    refine iff_of_true ?_ (decodesInRange_of_none rfl)
    simp only [intStep] at hstep
    split_ifs at hstep with hp hrefuses
    cases hstep
    rw [IntKind.refuses_iff, not_not] at hrefuses
    refine h.push_iff.mpr fun q hq => ?_
    cases hq
    exact hrefuses
  | fromString kind s =>
    refine iff_of_true ?_ (decodesInRange_of_none rfl)
    simp only [intStep] at hstep
    split at hstep
    · cases hstep
      exact h.makeNil
    · split_ifs at hstep with hrefuses
      · cases hstep
        exact h.makeNil
      · cases hstep
        exact h.make_iff.mpr (not_not.mp fun hrange => hrefuses (IntKind.refuses_iff.mpr hrange))
  | withDecimal kind n dec =>
    refine iff_of_true ?_ (decodesInRange_of_none rfl)
    simp only [intStep] at hstep
    split_ifs at hstep with hdec hrefuses
    cases hstep
    exact h.make_iff.mpr (not_not.mp fun hrange => hrefuses (IntKind.refuses_iff.mpr hrange))
  | zero kind | one kind =>
    cases hstep
    exact iff_of_true (h.make_iff.mpr (by cases kind <;> decide)) (decodesInRange_of_none rfl)
  | bigInt kind index =>
    obtain ⟨x, -, hx⟩ := bind_eq_ok.mp hstep
    cases hx
    exact iff_of_true (h.alloc x) (decodesInRange_of_none rfl)
  | arith op kind index index2 =>
    obtain ⟨x, hx, hstep⟩ := bind_eq_ok.mp hstep
    obtain ⟨x2, hx2, hstep⟩ := bind_eq_ok.mp hstep
    obtain ⟨result, hresult, hstep⟩ := bind_eq_ok.mp hstep
    cases hstep
    exact iff_of_true (h.make_iff.mpr (Arith.apply_range (h.load hx) (h.load hx2) hresult)) (decodesInRange_of_none rfl)
  | arithRawInt op index n =>
    obtain ⟨x, hx, hstep⟩ := bind_eq_ok.mp hstep
    obtain ⟨result, hresult, hstep⟩ := bind_eq_ok.mp hstep
    cases hstep
    have hn : IntKind.int.Range (newInt n) := intRange_newInt n
    exact iff_of_true (h.make_iff.mpr (Arith.apply_range (h.load hx) hn hresult)) (decodesInRange_of_none rfl)
  | arithRawUint op index n =>
    obtain ⟨x, hx, hstep⟩ := bind_eq_ok.mp hstep
    obtain ⟨result, hresult, hstep⟩ := bind_eq_ok.mp hstep
    cases hstep
    have hn : IntKind.uint.Range (newUint n) := uintRange_newUint n
    exact iff_of_true (h.make_iff.mpr (Arith.apply_range (h.load hx) hn hresult)) (decodesInRange_of_none rfl)
  | neg index =>
    obtain ⟨x, hx, hstep⟩ := bind_eq_ok.mp hstep
    cases hstep
    have hrange : IntRange x := h.load hx
    exact iff_of_true (h.make_iff.mpr hrange.neg) (decodesInRange_of_none rfl)
  | unmarshalAmino kind index text =>
    obtain ⟨x, hx, hiff⟩ := h.unmarshalText_iff hstep
    have hdecoded : decoded format (.unmarshalAmino kind index text) = some (kind, index, x) := by
      simp [decoded, hx]
    rw [hiff, decodesInRange_iff_of_some hdecoded]
  | unmarshalJSON kind index bz =>
    simp only [intStep] at hstep
    split at hstep
    · cases hstep
    · rename_i text htext
      obtain ⟨x, hx, hiff⟩ := h.unmarshalText_iff hstep
      have hdecoded : decoded format (.unmarshalJSON kind index bz) = some (kind, index, x) := by
        simp [decoded, htext, hx]
      rw [hiff, decodesInRange_iff_of_some hdecoded]

theorem Memory.sound_empty : Memory.empty.Sound := by
  intro kind p hp
  simp [Memory.empty] at hp

/-- In every program that makes its values with the constructors, operations and decoders of `Int` and
`Uint`, all values are always in range exactly if everything it decodes is. -/
theorem values_in_range_iff (format : TextFormat) {history : List (Memory × IntOp)} {m : Memory}
    (hrun : Run (intStep format) Memory.empty history m) :
    Run.Always Memory.Sound history m ↔ Run.Meets (DecodesInRange format) history := by
  have hallowed : Run.Meets (fun _ _ => True) history := fun _ _ => trivial
  exact Run.always_iff (fun _ => True) trivial Memory.sound_empty (fun _ _ _ => trivial)
    (fun _ hsound _ hstep => intStep_sound_iff hsound hstep) hrun hallowed

/-- Decimal numerals, in JSON between quotes. -/
def decimalFormat : TextFormat where
  setString := setString
  jsonString bz :=
    if bz.head? = some 34 ∧ bz.getLast? = some 34 then some bz.tail.dropLast else none

/-- Decoding `-5` into a `nil` variable and doubling it. -/
theorem values_in_range_example : ∃ history m, Run (intStep decimalFormat) .empty history m ∧
    m.heap = [-5, -10] ∧ Run.Always Memory.Sound history m := by
  obtain ⟨m, hrun, hheap⟩ := Run.of_leadsTo (intStep decimalFormat) .empty
    [.declare .int, .unmarshalJSON .int 0 [34, 45, 53, 34], .arith .add .int 0 0]
    (fun m => decide (m.heap = [-5, -10])) (by decide +kernel)
  exact ⟨_, m, hrun, of_decide_eq_true hheap,
    (values_in_range_iff decimalFormat hrun).mpr (by decide +kernel)⟩

/-- An `Int` is decoded that has 256 bits. -/
theorem decoded_out_of_range : ∃ history m, Run (intStep decimalFormat) .empty history m ∧
    ¬ m.Sound := by
  obtain ⟨m, hrun, hfound⟩ := Run.of_leadsTo (intStep decimalFormat) .empty
    [.declare .int, .unmarshalJSON .int 0 (34 :: decimal (2 ^ 255) ++ [34])]
    (fun m => decide (some 0 ∈ m.values .int ∧ m.heap.getD 0 0 = 2 ^ 255)) (by decide +kernel)
  obtain ⟨hmem, hvalue⟩ := of_decide_eq_true hfound
  refine ⟨_, m, hrun, fun hsound => ?_⟩
  have hrange := hsound .int 0 hmem
  rw [hvalue] at hrange
  exact absurd hrange (by decide)

/-- A negative `Uint` arises although only an `Int` is decoded and that is in range: both share the
pointer they were made from. -/
example : ∃ history m, Run (intStep decimalFormat) .empty history m ∧ m.load .uint 0 = .ok (-5) := by
  obtain ⟨m, hrun, hload⟩ := Run.of_leadsTo (intStep decimalFormat) .empty
    [.newBigInt 7, .fromBigInt .uint 0, .fromBigInt .int 0, .unmarshalAmino .int 0 [45, 53]]
    (fun m => decide (m.load .uint 0 = .ok (-5))) (by decide +kernel)
  exact ⟨_, m, hrun, of_decide_eq_true hload⟩

end Tepleton
