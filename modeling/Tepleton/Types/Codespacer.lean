import Mathlib

/-!
# Codespaces: `types/codespacer.go`

`RegisterNext` looks for a codespace that is not reserved, counting up in sixteen bits, and compares
with the maximum only after it has counted.  A search from below the maximum therefore ends below it,
but one that begins at the maximum may return the maximum, or start again at zero.

* `codespaces_registered_iff`: every call ends, no codespace is registered twice, and `RegisterNext`
  finds the smallest codespace in its range exactly if it is not asked for the maximum, or all
  codespaces are reserved.
-/

namespace Tepleton

/-- A Go `uint16`. -/
abbrev CodespaceType := UInt16

def maximumCodespace : CodespaceType := 65535

/-- The map of reserved codespaces.  One that is not in the map reads as false. -/
structure Codespacer where
  reserved : CodespaceType → Bool

namespace Codespacer

def newCodespacer : Codespacer := ⟨fun _ => false⟩

/-- `c.reserved[codespace] = true`. -/
def reserve (c : Codespacer) (codespace : CodespaceType) : Codespacer :=
  ⟨Function.update c.reserved codespace true⟩

/-- A call ends with the codespace it has reserved, or panics with a text and leaves the map alone. -/
abbrev Ending := Except String (CodespaceType × Codespacer)

/-- `RegisterNext`, if its loop ends within `fuel` rounds. -/
def registerNext (c : Codespacer) : ℕ → CodespaceType → Option Ending
  | 0, _ => none
  | fuel + 1, codespace =>
    if !c.reserved codespace then some (.ok (codespace, c.reserve codespace))
    else
      let codespace := codespace + 1
      if codespace = maximumCodespace then some (.error "Maximum codespace reached!")
      else c.registerNext fuel codespace

def registerOrPanic (c : Codespacer) (codespace : CodespaceType) : Ending :=
  if c.reserved codespace then .error "Cannot register codespace, already reserved"
  else .ok (codespace, c.reserve codespace)

inductive Call
  | registerNext (codespace : CodespaceType)
  | registerOrPanic (codespace : CodespaceType)

def call (c : Codespacer) (fuel : ℕ) : Call → Option Ending
  | .registerNext codespace => c.registerNext fuel codespace
  | .registerOrPanic codespace => some (c.registerOrPanic codespace)

/-- A sequence of calls, by a caller that goes on after a panic: the codespaces they have registered,
in this order, and the map after them. -/
def calls (c : Codespacer) (fuel : ℕ) : List Call → Option (List CodespaceType × Codespacer)
  | [] => some ([], c)
  | call :: rest =>
    match c.call fuel call with
    | none => none
    | some (.error _) => c.calls fuel rest
    | some (.ok (codespace, c')) => do
      let (registered, c'') ← c'.calls fuel rest
      return (codespace :: registered, c'')

/-! ## What `RegisterNext` is for -/

/-- `codespace` is not reserved, and is in the range that a request allows. -/
structure Available (c : Codespacer) (requested codespace : CodespaceType) : Prop where
  free : c.reserved codespace = false
  above : requested ≤ codespace
  below : codespace < maximumCodespace

/-- The smallest available codespace is reserved, or there is none and the call panics. -/
def RegistersSmallest (c : Codespacer) (requested : CodespaceType) : Ending → Prop
  | .ok (codespace, c') =>
    c.Available requested codespace ∧ (∀ other, c.Available requested other → codespace ≤ other) ∧
      c' = c.reserve codespace
  | .error _ => ∀ codespace, ¬ c.Available requested codespace

variable {c : Codespacer} {codespace requested : CodespaceType}

/-! ## The loop -/

theorem registerNext_of_free (hfree : c.reserved codespace = false) {fuel : ℕ} (hfuel : 0 < fuel) :
    c.registerNext fuel codespace = some (.ok (codespace, c.reserve codespace)) := by
  obtain ⟨rounds, rfl⟩ := Nat.exists_eq_add_of_lt hfuel
  simp [registerNext, hfree]

theorem registerNext_of_reserved (hreserved : c.reserved codespace = true)
    (hnext : codespace + 1 ≠ maximumCodespace) (fuel : ℕ) :
    c.registerNext (fuel + 1) codespace = c.registerNext fuel (codespace + 1) := by
  simp [registerNext, hreserved, hnext]

theorem lt_maximum_iff : codespace < maximumCodespace ↔ codespace.toNat < 65535 :=
  UInt16.lt_iff_toNat_lt

theorem toNat_succ (hbelow : codespace < maximumCodespace) :
    (codespace + 1).toNat = codespace.toNat + 1 := by
  rw [lt_maximum_iff] at hbelow
  rw [UInt16.toNat_add, UInt16.toNat_one]
  omega

theorem succ_eq_maximum_iff (hbelow : codespace < maximumCodespace) :
    codespace + 1 = maximumCodespace ↔ codespace.toNat + 1 = 65535 := by
  rw [← UInt16.toNat_inj, toNat_succ hbelow]
  rfl

/-- Going on from a reserved codespace misses nothing. -/
theorem available_succ_iff (hbelow : codespace < maximumCodespace)
    (hreserved : c.reserved codespace = true) (other : CodespaceType) :
    c.Available (codespace + 1) other ↔ c.Available codespace other := by
  have hsucc := toNat_succ hbelow
  constructor
  · rintro ⟨hfree, habove, hmax⟩
    refine ⟨hfree, ?_, hmax⟩
    rw [UInt16.le_iff_toNat_le] at habove ⊢
    omega
  · rintro ⟨hfree, habove, hmax⟩
    refine ⟨hfree, ?_, hmax⟩
    have hne : codespace.toNat ≠ other.toNat := by
      intro heq
      rw [UInt16.toNat_inj.mp heq, hfree] at hreserved
      cases hreserved
    rw [UInt16.le_iff_toNat_le] at habove ⊢
    omega

theorem RegistersSmallest.of_succ {ending : Ending} (hbelow : codespace < maximumCodespace)
    (hreserved : c.reserved codespace = true) (h : c.RegistersSmallest (codespace + 1) ending) :
    c.RegistersSmallest codespace ending := by
  have hiff := available_succ_iff hbelow hreserved
  cases ending with
  | ok result =>
    obtain ⟨havailable, hleast, hstate⟩ := h
    exact ⟨(hiff _).mp havailable, fun other hother => hleast other ((hiff other).mpr hother), hstate⟩
  | error text => exact fun other hother => h other ((hiff other).mpr hother)

theorem registersSmallest_of_free (hbelow : codespace < maximumCodespace)
    (hfree : c.reserved codespace = false) :
    c.RegistersSmallest codespace (.ok (codespace, c.reserve codespace)) :=
  ⟨⟨hfree, UInt16.le_refl codespace, hbelow⟩, fun _ hother => hother.above, rfl⟩

/-- A search from below the maximum ends, at the latest, where it would reach the maximum. -/
theorem registerNext_below {distance : ℕ} (hdistance : codespace.toNat + distance + 1 = 65535) :
    ∃ ending, (∀ fuel, distance < fuel → c.registerNext fuel codespace = some ending) ∧
      c.RegistersSmallest codespace ending := by
  induction distance generalizing codespace with
  | zero =>
    have hbelow : codespace < maximumCodespace := lt_maximum_iff.mpr (by omega)
    have hnext : codespace + 1 = maximumCodespace := (succ_eq_maximum_iff hbelow).mpr hdistance
    cases hreserved : c.reserved codespace with
    | false =>
      exact ⟨_, fun fuel hfuel => registerNext_of_free hreserved hfuel,
        registersSmallest_of_free hbelow hreserved⟩
    | true =>
      refine ⟨.error "Maximum codespace reached!", fun fuel hfuel => ?_, fun other hother => ?_⟩
      · obtain ⟨rounds, rfl⟩ := Nat.exists_eq_add_of_lt hfuel
        simp [registerNext, hreserved, hnext]
      · have hlast := (available_succ_iff hbelow hreserved other).mpr hother
        rw [hnext] at hlast
        exact UInt16.not_lt.mpr hlast.above hlast.below
  | succ distance ih =>
    have hbelow : codespace < maximumCodespace := lt_maximum_iff.mpr (by omega)
    have hnext : codespace + 1 ≠ maximumCodespace := by
      rw [Ne, succ_eq_maximum_iff hbelow]
      omega
    cases hreserved : c.reserved codespace with
    | false =>
      exact ⟨_, fun fuel hfuel => registerNext_of_free hreserved (Nat.zero_lt_of_lt hfuel),
        registersSmallest_of_free hbelow hreserved⟩
    | true =>
      have hsucc : (codespace + 1).toNat + distance + 1 = 65535 := by
        rw [toNat_succ hbelow]
        omega
      obtain ⟨ending, hends, hsmallest⟩ := ih hsucc
      refine ⟨ending, fun fuel hfuel => ?_, hsmallest.of_succ hbelow hreserved⟩
      obtain ⟨rounds, rfl⟩ := Nat.exists_eq_add_of_lt hfuel
      rw [registerNext_of_reserved hreserved hnext]
      exact hends _ (by omega)

/-- No codespace is available to a request for the maximum, so that only a panic would be right. -/
theorem registersSmallest_maximum_iff {ending : Ending} :
    c.RegistersSmallest maximumCodespace ending ↔ ∃ text, ending = .error text := by
  have hnone : ∀ other, ¬ c.Available maximumCodespace other :=
    fun other hother => UInt16.not_lt.mpr hother.above hother.below
  cases ending with
  | ok result => simp [RegistersSmallest, hnone]
  | error text => simp [RegistersSmallest, hnone]

theorem lt_maximum_of_ne (hne : codespace ≠ maximumCodespace) : codespace < maximumCodespace := by
  have hle : codespace.toNat ≤ 65535 := Nat.le_of_lt_succ codespace.toNat_lt
  rw [lt_maximum_iff]
  refine lt_of_le_of_ne hle ?_
  intro heq
  exact hne (UInt16.toNat_inj.mp heq)

/-- A search from zero fails exactly if everything below the maximum is reserved. -/
theorem RegistersSmallest.error_iff {ending : Ending} (h : c.RegistersSmallest 0 ending)
    (hmax : c.reserved maximumCodespace = true) :
    (∃ text, ending = .error text) ↔ ∀ codespace, c.reserved codespace = true := by
  cases ending with
  | ok result =>
    obtain ⟨havailable, -, -⟩ := h
    simp only [reduceCtorEq, exists_false, false_iff, not_forall]
    exact ⟨result.1, by simp [havailable.free]⟩
  | error text =>
    refine ⟨fun _ codespace => ?_, fun _ => ⟨text, rfl⟩⟩
    by_contra hreserved
    have hne : codespace ≠ maximumCodespace := by
      rintro rfl
      exact hreserved hmax
    exact h codespace ⟨by simpa using hreserved, UInt16.zero_le, lt_maximum_of_ne hne⟩

/-- Every search ends within `2 ^ 16` rounds, and does what it is for exactly if it does not begin at
the maximum or there is nothing to find. -/
theorem registerNext_iff (c : Codespacer) (requested : CodespaceType) :
    ∃ ending, (∀ fuel, 2 ^ 16 ≤ fuel → c.registerNext fuel requested = some ending) ∧
      (c.RegistersSmallest requested ending ↔
        requested ≠ maximumCodespace ∨ ∀ codespace, c.reserved codespace = true) := by
  by_cases hmax : requested = maximumCodespace
  · subst hmax
    simp only [registersSmallest_maximum_iff, ne_eq, not_true, false_or]
    cases hreserved : c.reserved maximumCodespace with
    | false =>
      refine ⟨_, fun fuel hfuel => registerNext_of_free hreserved (by omega), ?_⟩
      simp only [reduceCtorEq, exists_false, false_iff, not_forall]
      exact ⟨maximumCodespace, by simp [hreserved]⟩
    | true =>
      -- the counter wraps around, and the search goes on from zero
      have hwrap : maximumCodespace + 1 = 0 := rfl
      have hzero : (0 : CodespaceType).toNat + 65534 + 1 = 65535 := rfl
      obtain ⟨ending, hends, hsmallest⟩ := registerNext_below (c := c) hzero
      refine ⟨ending, fun fuel hfuel => ?_, hsmallest.error_iff hreserved⟩
      obtain ⟨rounds, rfl⟩ := Nat.exists_eq_add_of_lt (show 0 < fuel by omega)
      rw [registerNext_of_reserved hreserved (by decide), hwrap]
      exact hends _ (by omega)
  · have hbelow := lt_maximum_iff.mp (lt_maximum_of_ne hmax)
    have hdistance : requested.toNat + (65534 - requested.toNat) + 1 = 65535 := by omega
    obtain ⟨ending, hends, hsmallest⟩ := registerNext_below (c := c) hdistance
    refine ⟨ending, fun fuel hfuel => hends fuel (by omega), ?_⟩
    simp [hsmallest, hmax]

/-! ## Sequences of calls -/

/-- A call that does not panic reserves a codespace that was free. -/
theorem registerNext_eq_ok {fuel : ℕ} {c' : Codespacer}
    (h : c.registerNext fuel requested = some (.ok (codespace, c'))) :
    c.reserved codespace = false ∧ c' = c.reserve codespace := by
  induction fuel generalizing requested with
  | zero => cases h
  | succ fuel ih =>
    simp only [registerNext] at h
    split_ifs at h with hfree hmax
    · cases h
      exact ⟨by simpa using hfree, rfl⟩
    · cases h
    · exact ih h

theorem registerOrPanic_eq_ok {c' : Codespacer}
    (h : c.registerOrPanic requested = .ok (codespace, c')) :
    c.reserved codespace = false ∧ c' = c.reserve codespace := by
  unfold registerOrPanic at h
  split_ifs at h with hreserved
  cases h
  exact ⟨by simpa using hreserved, rfl⟩

theorem call_ends (c : Codespacer) (call : Call) :
    ∃ ending, (∀ fuel, 2 ^ 16 ≤ fuel → c.call fuel call = some ending) ∧
      ∀ codespace c', ending = .ok (codespace, c') →
        c.reserved codespace = false ∧ c' = c.reserve codespace := by
  cases call with
  | registerNext requested =>
    obtain ⟨ending, hends, -⟩ := c.registerNext_iff requested
    refine ⟨ending, hends, ?_⟩
    rintro codespace c' rfl
    exact registerNext_eq_ok (hends (2 ^ 16) le_rfl)
  | registerOrPanic requested =>
    exact ⟨_, fun fuel _ => rfl, fun codespace c' => registerOrPanic_eq_ok⟩

theorem reserved_reserve (c : Codespacer) (codespace other : CodespaceType) :
    (c.reserve codespace).reserved other = true ↔ other = codespace ∨ c.reserved other = true := by
  by_cases heq : other = codespace <;> simp [reserve, heq]

/-- A sequence of calls ends, and the codespaces it registers are distinct, were free before, and are
the ones reserved by it. -/
theorem calls_register (c : Codespacer) (requests : List Call) :
    ∃ registered c', (∀ fuel, 2 ^ 16 ≤ fuel → c.calls fuel requests = some (registered, c')) ∧
      registered.Nodup ∧ (∀ codespace ∈ registered, c.reserved codespace = false) ∧
      ∀ codespace, c'.reserved codespace = true ↔
        codespace ∈ registered ∨ c.reserved codespace = true := by
  induction requests generalizing c with
  | nil => exact ⟨[], c, fun fuel _ => rfl, List.nodup_nil, by simp, by simp⟩
  | cons call rest ih =>
    obtain ⟨ending, hends, hreserves⟩ := c.call_ends call
    cases ending with
    | error text =>
      obtain ⟨registered, c', hrest, hproperties⟩ := ih c
      refine ⟨registered, c', fun fuel hfuel => ?_, hproperties⟩
      rw [calls, hends fuel hfuel]
      exact hrest fuel hfuel
    | ok result =>
      obtain ⟨codespace, c₁⟩ := result
      obtain ⟨hfree, rfl⟩ := hreserves codespace c₁ rfl
      obtain ⟨registered, c', hrest, hnodup, hbefore, hafter⟩ := ih (c.reserve codespace)
      -- what the rest registers was free after this call, so it is neither this codespace nor reserved
      have hother : ∀ other ∈ registered, other ≠ codespace ∧ c.reserved other = false := by
        intro other hmem
        have hfree' := hbefore other hmem
        rw [Bool.eq_false_iff, Ne, reserved_reserve, not_or] at hfree'
        exact ⟨hfree'.1, by simpa using hfree'.2⟩
      refine ⟨codespace :: registered, c', fun fuel hfuel => ?_, ?_, ?_, ?_⟩
      · rw [calls, hends fuel hfuel]
        simp [hrest fuel hfuel]
      · exact List.nodup_cons.mpr ⟨fun hmem => (hother codespace hmem).1 rfl, hnodup⟩
      · exact List.forall_mem_cons.mpr ⟨hfree, fun other hmem => (hother other hmem).2⟩
      · intro other
        rw [hafter, reserved_reserve, List.mem_cons]
        tauto

/-- On a codespacer with any reservations, whatever calls are made: they all end, and register
codespaces that are distinct and were not reserved before.  A call of `RegisterNext` ends as well,
and it reserves the smallest codespace in its range, or panics because there is none, exactly if it is
not asked for the maximum or all codespaces are reserved. -/
theorem codespaces_registered_iff (c : Codespacer) (requests : List Call) :
    (∃ registered c', (∀ fuel, 2 ^ 16 ≤ fuel → c.calls fuel requests = some (registered, c')) ∧
      registered.Nodup ∧ (∀ codespace ∈ registered, c.reserved codespace = false) ∧
      ∀ codespace, c'.reserved codespace = true ↔
        codespace ∈ registered ∨ c.reserved codespace = true) ∧
    ∀ requested, ∃ ending,
      (∀ fuel, 2 ^ 16 ≤ fuel → c.registerNext fuel requested = some ending) ∧
      (c.RegistersSmallest requested ending ↔
        requested ≠ maximumCodespace ∨ ∀ codespace, c.reserved codespace = true) :=
  ⟨c.calls_register requests, c.registerNext_iff⟩

/-- On a new codespacer, two requests for the maximum are given the maximum and zero. -/
theorem registerNext_maximum :
    (newCodespacer.calls 2 [.registerNext maximumCodespace, .registerNext maximumCodespace]).map
        Prod.fst = some [65535, 0] ∧
      ∃ ending, newCodespacer.registerNext 1 maximumCodespace = some ending ∧
        ¬ newCodespacer.RegistersSmallest maximumCodespace ending := by
  refine ⟨by decide +kernel, _, registerNext_of_free rfl Nat.one_pos, ?_⟩
  rw [registersSmallest_maximum_iff]
  simp

end Codespacer

end Tepleton
