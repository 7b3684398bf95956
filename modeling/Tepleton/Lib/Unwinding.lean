import Mathlib

/-!
# Inputs that leave no trace

A system answers each input with an output and a new state, or stops.  Some inputs are `low`, and
`view` is the part of the state that matters to them.  If every other input succeeds and keeps the
view, and what a low input does to output and view depends on the view only, then a run shows the
same to an observer of the low inputs whether or not the other inputs are left out.

`outputs_eq` compares two states of such a system: if they are related by a bisimulation, which may
depend on the inputs still to come, then the system answers all inputs alike from both.
-/

namespace Tepleton.Lib

variable {σ ι ε ω ν : Type}

/-- What a run shows at its low inputs, up to where the system stops. -/
def observe (step : σ → ι → Except ε (ω × σ)) (low : ι → Bool) (view : σ → ν) (s : σ) :
    List ι → List (ι × Except ε (ω × ν))
  | [] => []
  | input :: inputs =>
    match step s input with
    | .error fault => [(input, .error fault)]
    | .ok (output, s) =>
      if low input then (input, .ok (output, view s)) :: observe step low view s inputs
      else observe step low view s inputs

/-- The conditions on single steps. -/
structure Unwinding (step : σ → ι → Except ε (ω × σ)) (low : ι → Bool) (view : σ → ν) : Prop where
  quiet (s : σ) {input : ι} : low input = false →
    ∃ output s', step s input = .ok (output, s') ∧ view s' = view s
  consistent {s t : σ} {input : ι} : low input = true → view s = view t →
    (step s input).map (Prod.map id view) = (step t input).map (Prod.map id view)

theorem Unwinding.observe_filter {step : σ → ι → Except ε (ω × σ)} {low : ι → Bool} {view : σ → ν}
    (h : Unwinding step low view) {s t : σ} (hview : view s = view t) (inputs : List ι) :
    observe step low view s inputs = observe step low view t (inputs.filter low) := by
  induction inputs generalizing s t with
  | nil => rfl
  | cons input inputs ih =>
    cases hlow : low input with
    | false =>
      obtain ⟨output, s', hstep, hsame⟩ := h.quiet s hlow
      rw [List.filter_cons_of_neg (by simp [hlow]), observe, hstep]
      simp only [hlow, Bool.false_eq_true, if_false]
      exact ih (hsame.trans hview)
    | true =>
      have hboth := h.consistent hlow hview
      rw [List.filter_cons_of_pos hlow, observe, observe]
      cases hs : step s input with
      | error fault =>
        cases ht : step t input with
        | error fault' =>
          rw [hs, ht] at hboth
          cases hboth
          rfl
        | ok result' =>
          rw [hs, ht] at hboth
          cases hboth
      | ok result =>
        cases ht : step t input with
        | error fault' =>
          rw [hs, ht] at hboth
          cases hboth
        | ok result' =>
          rw [hs, ht] at hboth
          obtain ⟨houtput, hsame⟩ := Prod.mk.inj (Except.ok.inj hboth)
          have houtput : result.1 = result'.1 := houtput
          simp only [hlow, if_true, houtput, hsame]
          rw [ih hsame]

/-! ## Bisimulation -/

/-- What a run answers, up to where the system stops. -/
def outputs (step : σ → ι → Except ε (ω × σ)) (s : σ) : List ι → List (Except ε ω)
  | [] => []
  | input :: inputs =>
    match step s input with
    | .error fault => [.error fault]
    | .ok (output, s) => .ok output :: outputs step s inputs

/-- The same answer and related states, or the same fault. -/
def Alike (R : σ → σ → Prop) : Except ε (ω × σ) → Except ε (ω × σ) → Prop
  | .error fault, .error fault' => fault = fault'
  | .ok (output, s), .ok (output', s') => output = output' ∧ R s s'
  | _, _ => False

theorem Alike.refl {R : σ → σ → Prop} (h : ∀ s, R s s) (x : Except ε (ω × σ)) : Alike R x x := by
  cases x with
  | error fault => rfl
  | ok result => exact ⟨rfl, h result.2⟩

theorem Alike.imp {R R' : σ → σ → Prop} {x y : Except ε (ω × σ)} (h : Alike R x y)
    (himp : ∀ {s t}, R s t → R' s t) : Alike R' x y := by
  cases x with
  | error fault =>
    cases y with
    | error fault' => exact h
    | ok result' => exact h
  | ok result =>
    cases y with
    | error fault' => exact h
    | ok result' => exact ⟨h.1, himp h.2⟩

theorem outputs_eq {step : σ → ι → Except ε (ω × σ)} (R : List ι → σ → σ → Prop)
    (hstep : ∀ {input inputs s t}, R (input :: inputs) s t →
      Alike (R inputs) (step s input) (step t input))
    {inputs : List ι} {s t : σ} (h : R inputs s t) : outputs step s inputs = outputs step t inputs := by
  induction inputs generalizing s t with
  | nil => rfl
  | cons input inputs ih =>
    have halike := hstep h
    rw [outputs, outputs]
    cases hs : step s input with
    | error fault =>
      cases ht : step t input with
      | error fault' =>
        rw [hs, ht] at halike
        cases halike
        rfl
      | ok result' =>
        rw [hs, ht] at halike
        cases halike
    | ok result =>
      cases ht : step t input with
      | error fault' =>
        rw [hs, ht] at halike
        cases halike
      | ok result' =>
        rw [hs, ht] at halike
        obtain ⟨houtput, hrelated⟩ := halike
        simp only [houtput]
        rw [ih hrelated]

end Tepleton.Lib
