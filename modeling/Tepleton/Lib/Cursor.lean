import Mathlib

/-!
# Iterators that move when they are asked

`Cursor` is the interface of a Go iterator: `Valid`, `Key`, `Value` and `Next`, each of which may
move the iterator on or panic.  `Cursor.Follows` relates the states of an iterator to the pairs it
still has to yield; an iterator that follows a list in this sense yields exactly that list in the
usual loop (`Follows.drain_eq`).  `mapKey` wraps an iterator and changes its keys, or panics on them.
-/

namespace Tepleton.Lib

variable {ε ι K V : Type}

/-- The methods of an iterator.  A `Value` may be `nil`. -/
structure Cursor (ε ι K V : Type) where
  valid : ι → Except ε (Bool × ι)
  key : ι → Except ε (K × ι)
  value : ι → Except ε (Option V × ι)
  next : ι → Except ε ι

namespace Cursor

/-- `for ; iter.Valid(); iter.Next()`, collecting keys and values.  There is no result if the loop
does not end within `fuel` rounds. -/
def drain (c : Cursor ε ι K V) : ℕ → ι → Except ε (Option (List (K × Option V)))
  | 0, _ => .ok none
  | fuel + 1, iter => do
      let (valid, iter) ← c.valid iter
      if valid then
        let (key, iter) ← c.key iter
        let (value, iter) ← c.value iter
        let iter ← c.next iter
        let rest ← c.drain fuel iter
        return rest.map ((key, value) :: ·)
      else return some []

/-- In a state related to a list, the iterator stands at the head of that list, whatever is asked
and however often, and `Next` moves it to the tail. -/
structure Follows (c : Cursor ε ι K V) (R : ι → List (K × V) → Prop) : Prop where
  valid {iter pairs} : R iter pairs →
    ∃ iter', c.valid iter = .ok (!pairs.isEmpty, iter') ∧ R iter' pairs
  key {iter k v pairs} : R iter ((k, v) :: pairs) →
    ∃ iter', c.key iter = .ok (k, iter') ∧ R iter' ((k, v) :: pairs)
  value {iter k v pairs} : R iter ((k, v) :: pairs) →
    ∃ iter', c.value iter = .ok (some v, iter') ∧ R iter' ((k, v) :: pairs)
  next {iter k v pairs} : R iter ((k, v) :: pairs) → ∃ iter', c.next iter = .ok iter' ∧ R iter' pairs

theorem Follows.drain_eq {c : Cursor ε ι K V} {R : ι → List (K × V) → Prop} (hc : c.Follows R)
    {iter : ι} {pairs : List (K × V)} (h : R iter pairs) {fuel : ℕ} (hfuel : pairs.length < fuel) :
    c.drain fuel iter = .ok (some (pairs.map fun pair => (pair.1, some pair.2))) := by
  induction pairs generalizing iter fuel with
  | nil =>
    obtain ⟨fuel, rfl⟩ : ∃ n, fuel = n + 1 := ⟨fuel - 1, by grind⟩
    obtain ⟨iter₁, hvalid, -⟩ := hc.valid h
    simp [drain, hvalid, bind, Except.bind, pure, Except.pure]
  | cons pair pairs ih =>
    obtain ⟨fuel, rfl⟩ : ∃ n, fuel = n + 1 := ⟨fuel - 1, by grind⟩
    obtain ⟨iter₁, hvalid, h₁⟩ := hc.valid h
    obtain ⟨iter₂, hkey, h₂⟩ := hc.key h₁
    obtain ⟨iter₃, hvalue, h₃⟩ := hc.value h₂
    obtain ⟨iter₄, hnext, h₄⟩ := hc.next h₃
    have hrest := ih h₄ (show pairs.length < fuel by grind)
    simp [drain, hvalid, hkey, hvalue, hnext, hrest, bind, Except.bind, pure, Except.pure]

/-! ## Changed keys -/

/-- An iterator that hands out changed keys. -/
def mapKey (c : Cursor ε ι K V) (f : K → Except ε K) : Cursor ε ι K V :=
  { c with key := fun iter => do
      let (key, iter) ← c.key iter
      let key ← f key
      return (key, iter) }

/-- A pair with its key changed, as the loop collects it. -/
def changePair (f : K → Except ε K) (pair : K × V) : Except ε (K × Option V) := do
  let key ← f pair.1
  return (key, some pair.2)

/-- The loop over it changes the keys one after the other. -/
theorem Follows.drain_mapKey {c : Cursor ε ι K V} {R : ι → List (K × V) → Prop} (hc : c.Follows R)
    (f : K → Except ε K) {iter : ι} {pairs : List (K × V)} (h : R iter pairs) {fuel : ℕ}
    (hfuel : pairs.length < fuel) :
    (c.mapKey f).drain fuel iter =
      pairs.mapM (changePair f) >>= fun changed => .ok (some changed) := by
  induction pairs generalizing iter fuel with
  | nil =>
    obtain ⟨fuel, rfl⟩ : ∃ n, fuel = n + 1 := ⟨fuel - 1, by grind⟩
    obtain ⟨iter₁, hvalid, -⟩ := hc.valid h
    simp [drain, mapKey, hvalid, bind, Except.bind, pure, Except.pure]
  | cons pair pairs ih =>
    obtain ⟨fuel, rfl⟩ : ∃ n, fuel = n + 1 := ⟨fuel - 1, by grind⟩
    obtain ⟨iter₁, hvalid, h₁⟩ := hc.valid h
    obtain ⟨iter₂, hkey, h₂⟩ := hc.key h₁
    obtain ⟨iter₃, hvalue, h₃⟩ := hc.value h₂
    obtain ⟨iter₄, hnext, h₄⟩ := hc.next h₃
    have hrest := ih h₄ (show pairs.length < fuel by grind)
    rw [List.mapM_cons, changePair]
    cases hf : f pair.1 with
    | error fault => simp [drain, mapKey, hvalid, hkey, hf, bind, Except.bind, pure, Except.pure]
    | ok key =>
      have hvalue' : (c.mapKey f).value iter₂ = .ok (some pair.2, iter₃) := hvalue
      have hnext' : (c.mapKey f).next iter₃ = .ok iter₄ := hnext
      have hvalid' : (c.mapKey f).valid iter = .ok (true, iter₁) := hvalid
      have hkey' : (c.mapKey f).key iter₁ = .ok (key, iter₂) := by
        simp [mapKey, hkey, hf, bind, Except.bind, pure, Except.pure]
      rw [drain, hvalid']
      simp only [bind, Except.bind, pure, Except.pure, if_true, hkey', hvalue', hnext'] at hrest ⊢
      rw [hrest]
      cases pairs.mapM (changePair f) <;> rfl

/-- If the keys of the list can all be changed, the iterator follows the changed list. -/
theorem Follows.mapKey {c : Cursor ε ι K V} {R : ι → List (K × V) → Prop} (hc : c.Follows R)
    (f : K → Except ε K) (g : K → K) :
    (c.mapKey f).Follows fun iter changed => ∃ pairs, R iter pairs ∧
      (∀ pair ∈ pairs, f pair.1 = .ok (g pair.1)) ∧
      changed = pairs.map fun pair => (g pair.1, pair.2) where
  valid := by
    rintro iter _ ⟨pairs, hR, hf, rfl⟩
    obtain ⟨iter', hvalid, hR'⟩ := hc.valid hR
    rw [List.isEmpty_map]
    exact ⟨iter', hvalid, pairs, hR', hf, rfl⟩
  key := by
    rintro iter k v _ ⟨pairs, hR, hf, hchanged⟩
    cases pairs with
    | nil => cases hchanged
    | cons pair pairs =>
      cases hchanged
      obtain ⟨iter', hkey, hR'⟩ := hc.key hR
      refine ⟨iter', ?_, pair :: pairs, hR', hf, rfl⟩
      simp [Cursor.mapKey, hkey, hf pair (by simp), bind, Except.bind, pure, Except.pure]
  value := by
    rintro iter k v _ ⟨pairs, hR, hf, hchanged⟩
    cases pairs with
    | nil => cases hchanged
    | cons pair pairs =>
      cases hchanged
      obtain ⟨iter', hvalue, hR'⟩ := hc.value hR
      exact ⟨iter', hvalue, pair :: pairs, hR', hf, rfl⟩
  next := by
    rintro iter k v _ ⟨pairs, hR, hf, hchanged⟩
    cases pairs with
    | nil => cases hchanged
    | cons pair pairs =>
      cases hchanged
      obtain ⟨iter', hnext, hR'⟩ := hc.next hR
      exact ⟨iter', hnext, pairs, hR', fun p hp => hf p (by simp [hp]), rfl⟩

end Cursor

end Tepleton.Lib
