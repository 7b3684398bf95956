import Mathlib

/-!
# Runs of a fallible step function

A system is given by a step function `σ → ι → Except ε σ`: a step that returns `.error` does not
happen.  `Run` records, for every step taken, the state it was taken in and its input, so that a
condition on the steps of a run and a property of the states it visits speak about one list.

`Run.invariant` is the induction every safety property goes through.  `Run.always_iff` is its
two-sided form: when one step from a good state reaches a good state exactly under `Guard`, a run
visits only good states exactly when all its steps meet `Guard`.
-/

namespace Tepleton.Lib

universe u v

variable {ε α β : Type u}

theorem bind_eq_ok {α β : Type v} {x : Except ε α} {f : α → Except ε β} {b : β} :
    (x >>= f) = .ok b ↔ ∃ a, x = .ok a ∧ f a = .ok b := by
  cases x with
  | error fault => simp [bind, Except.bind]
  | ok a => simp [bind, Except.bind]

theorem pure_eq_ok {a b : α} : (pure a : Except ε α) = .ok b ↔ a = b := by
  simp [pure, Except.pure]

theorem throw_eq_ok {fault : ε} {b : α} : (throw fault : Except ε α) = .ok b ↔ False := by
  simp [throw, throwThe, MonadExceptOf.throw]

theorem exists_of_mem_forall₂ {R : α → β → Prop} {as : List α} {bs : List β} {b : β}
    (h : List.Forall₂ R as bs) (hb : b ∈ bs) : ∃ a ∈ as, R a b := by
  induction h with
  | nil => simp at hb
  | cons hab _ ih =>
    rcases List.mem_cons.mp hb with rfl | hb
    · exact ⟨_, List.mem_cons_self, hab⟩
    · obtain ⟨a, ha, hab⟩ := ih hb
      exact ⟨a, List.mem_cons_of_mem _ ha, hab⟩

theorem forall₂_and_right {R : α → β → Prop} {P : β → Prop} {as : List α} {bs : List β} :
    List.Forall₂ (fun a b => R a b ∧ P b) as bs ↔ List.Forall₂ R as bs ∧ ∀ b ∈ bs, P b := by
  constructor
  · intro h
    induction h with
    | nil => exact ⟨.nil, by simp⟩
    | cons hab _ ih => exact ⟨.cons hab.1 ih.1, List.forall_mem_cons.mpr ⟨hab.2, ih.2⟩⟩
  · rintro ⟨h, hbs⟩
    induction h with
    | nil => exact .nil
    | cons hab _ ih =>
      rw [List.forall_mem_cons] at hbs
      exact .cons ⟨hab, hbs.1⟩ (ih hbs.2)

variable {f : α → Except ε β} {as : List α} {bs : List β} {a : α} {b : β}

theorem mapM_eq_ok_iff : as.mapM f = .ok bs ↔ List.Forall₂ (fun a b => f a = .ok b) as bs := by
  induction as generalizing bs with
  | nil => rw [List.mapM_nil, pure_eq_ok, List.forall₂_nil_left_iff, eq_comm]
  | cons a as ih =>
    simp only [List.mapM_cons, bind_eq_ok, pure_eq_ok, List.forall₂_cons_left_iff, ih]
    grind

theorem forall₂_of_mapM (h : as.mapM f = .ok bs) : List.Forall₂ (fun a b => f a = .ok b) as bs :=
  mapM_eq_ok_iff.mp h

theorem mapM_of_forall₂ {γ : Type u} {g : γ → β} {R : α → γ → Prop} {cs : List γ}
    (h : List.Forall₂ R as cs) (hf : ∀ {a c}, R a c → f a = .ok (g c)) :
    as.mapM f = .ok (cs.map g) := by
  rw [mapM_eq_ok_iff, List.forall₂_map_right_iff]
  exact h.imp fun _ _ => hf

theorem exists_of_mem_mapM (h : as.mapM f = .ok bs) (hb : b ∈ bs) : ∃ a ∈ as, f a = .ok b :=
  (exists_of_mem_forall₂ (mapM_eq_ok_iff.mp h) hb :)

theorem exists_mem_of_mapM (h : as.mapM f = .ok bs) (ha : a ∈ as) : ∃ b ∈ bs, f a = .ok b :=
  exists_of_mem_forall₂ (R := fun b a => f a = .ok b) (mapM_eq_ok_iff.mp h).flip ha

theorem nodup_of_mapM (h : as.mapM f = .ok bs) (hnodup : as.Nodup)
    (hinj : ∀ {a a' b}, a ∈ as → a' ∈ as → f a = .ok b → f a' = .ok b → a = a') : bs.Nodup := by
  induction mapM_eq_ok_iff.mp h with
  | nil => exact List.nodup_nil
  | cons hb hbs ih =>
    rw [List.nodup_cons] at hnodup ⊢
    refine ⟨fun hmem => ?_,
      ih (mapM_eq_ok_iff.mpr hbs) hnodup.2 fun ha ha' => hinj (by simp [ha]) (by simp [ha'])⟩
    obtain ⟨a', ha', hb'⟩ := exists_of_mem_forall₂ hbs hmem
    have heq := hinj (by simp) (by simp [ha']) hb hb'
    exact hnodup.1 (heq ▸ ha')

theorem mapM_returns_iff : (∃ bs, as.mapM f = .ok bs) ↔ ∀ a ∈ as, ∃ b, f a = .ok b := by
  constructor
  · rintro ⟨bs, h⟩ a ha
    obtain ⟨b, -, hb⟩ := exists_mem_of_mapM h ha
    exact ⟨b, hb⟩
  · intro h
    induction as with
    | nil => exact ⟨[], rfl⟩
    | cons a as ih =>
      obtain ⟨b, hb⟩ := h a List.mem_cons_self
      obtain ⟨bs, hbs⟩ := ih fun a' ha' => h a' (List.mem_cons_of_mem _ ha')
      exact ⟨b :: bs, mapM_eq_ok_iff.mpr (.cons hb (mapM_eq_ok_iff.mp hbs))⟩

/-- What holds of the value of a call that returns. -/
def Returns (P : α → Prop) : Except ε α → Prop
  | .error _ => True
  | .ok a => P a

instance (P : α → Prop) [DecidablePred P] (x : Except ε α) : Decidable (Returns P x) :=
  match x with
  | .error _ => inferInstanceAs (Decidable True)
  | .ok a => inferInstanceAs (Decidable (P a))

variable {P : α → Prop} {x : Except ε α}

theorem Returns.intro (h : ∀ a, x = .ok a → P a) : Returns P x := by
  cases x with
  | error fault => trivial
  | ok a => exact h a rfl

theorem Returns.of_ok (h : Returns P x) (hx : x = .ok a) : P a := by
  subst hx
  exact h

/-- The call returns a value that passes a test. -/
def passes (test : α → Bool) : Except ε α → Bool
  | .error _ => false
  | .ok a => test a

theorem exists_of_passes {test : α → Bool} (h : passes test x = true) :
    ∃ a, x = .ok a ∧ test a = true := by
  cases x with
  | error fault => cases h
  | ok a => exact ⟨a, rfl, h⟩

/-- The call fails with this fault. -/
def failsWith [DecidableEq ε] (fault : ε) : Except ε α → Bool
  | .error other => decide (other = fault)
  | .ok _ => false

theorem error_of_failsWith [DecidableEq ε] {fault : ε} (h : failsWith fault x = true) :
    x = .error fault := by
  cases x with
  | error other => rw [of_decide_eq_true h]
  | ok a => cases h

/-- The call does not fail with a fault in `bad`. -/
def Avoids (bad : ε → Prop) : Except ε α → Prop
  | .error fault => ¬ bad fault
  | .ok _ => True

theorem avoids_pure (bad : ε → Prop) (a : α) : Avoids bad (pure a : Except ε α) := trivial

theorem Avoids.bind {bad : ε → Prop} (hx : Avoids bad x)
    (hf : ∀ a, x = .ok a → Avoids bad (f a)) : Avoids bad (x >>= f) := by
  cases x with
  | error fault => exact hx
  | ok a => exact hf a rfl

variable {σ ι : Type*} {ε : Type*} {step : σ → ι → Except ε σ} {start s s' middle : σ} {input : ι}
  {inputs : List ι} {history : List (σ × ι)} {entry : σ × ι} {Guard : σ → ι → Prop}

/-- `Run step start history s`: every step of `history` succeeded, one after the other, and led
from `start` to `s`.  An entry of `history` is the state a step was taken in and its input. -/
inductive Run (step : σ → ι → Except ε σ) (start : σ) : List (σ × ι) → σ → Prop
  | nil : Run step start [] start
  | snoc {history : List (σ × ι)} {s s' : σ} {input : ι} :
      Run step start history s → step s input = .ok s' →
      Run step start (history ++ [(s, input)]) s'

theorem Run.nil_iff : Run step start [] s ↔ s = start := by
  constructor
  · intro hrun
    generalize hnone : ([] : List (σ × ι)) = history at hrun
    cases hrun with
    | nil => rfl
    | snoc _ _ => simp at hnone
  · rintro rfl
    exact .nil

theorem Run.snoc_iff :
    Run step start (history ++ [entry]) s ↔
      Run step start history entry.1 ∧ step entry.1 entry.2 = .ok s := by
  constructor
  · intro hrun
    generalize hwhole : history ++ [entry] = whole at hrun
    cases hrun with
    | nil => simp at hwhole
    | snoc hbefore htaken =>
      obtain ⟨rfl, hentry⟩ := List.append_inj' hwhole rfl
      obtain rfl := List.singleton_inj.mp hentry
      exact ⟨hbefore, htaken⟩
  · exact fun ⟨hbefore, htaken⟩ => hbefore.snoc htaken

theorem Run.map {τ : Type*} {ε' : Type*} {step' : τ → ι → Except ε' τ} (f : σ → τ)
    (hstep : ∀ {s input s'}, step s input = .ok s' → step' (f s) input = .ok (f s'))
    (hrun : Run step start history s) :
    Run step' (f start) (history.map fun entry => (f entry.1, entry.2)) (f s) := by
  induction hrun with
  | nil => exact .nil
  | snoc _ htaken ih =>
    rw [List.map_append]
    exact ih.snoc (hstep htaken)

theorem Run.append_iff {before after : List (σ × ι)} :
    Run step start (before ++ after) s ↔
      ∃ middle, Run step start before middle ∧ Run step middle after s := by
  induction after using List.reverseRecOn generalizing s with
  | nil =>
    rw [List.append_nil]
    simp only [Run.nil_iff, exists_eq_right']
  | append_singleton after entry ih =>
    rw [← List.append_assoc, Run.snoc_iff, ih]
    simp only [Run.snoc_iff]
    constructor
    · exact fun ⟨⟨middle, hbefore, hafter⟩, htaken⟩ => ⟨middle, hbefore, hafter, htaken⟩
    · exact fun ⟨middle, hbefore, hafter, htaken⟩ => ⟨⟨middle, hbefore, hafter⟩, htaken⟩

theorem Run.cons_iff :
    Run step start (entry :: history) s ↔
      entry.1 = start ∧ ∃ middle, step start entry.2 = .ok middle ∧ Run step middle history s := by
  rw [← List.singleton_append, Run.append_iff]
  constructor
  · rintro ⟨middle, hfirst, hrest⟩
    rw [← List.nil_append [entry], Run.snoc_iff, Run.nil_iff] at hfirst
    obtain ⟨rfl, htaken⟩ := hfirst
    exact ⟨rfl, middle, htaken, hrest⟩
  · rintro ⟨rfl, middle, htaken, hrest⟩
    exact ⟨middle, Run.snoc .nil htaken, hrest⟩

theorem Run.of_mem (hrun : Run step start history s) (hentry : entry ∈ history) :
    ∃ before after s', history = before ++ entry :: after ∧ Run step start before entry.1 ∧
      step entry.1 entry.2 = .ok s' ∧ Run step s' after s := by
  obtain ⟨before, after, rfl⟩ := List.append_of_mem hentry
  obtain ⟨middle, hbefore, hrest⟩ := Run.append_iff.mp hrun
  obtain ⟨rfl, s', htaken, hafter⟩ := Run.cons_iff.mp hrest
  exact ⟨before, after, s', rfl, hbefore, htaken, hafter⟩

/-- The steps of a run all meet `Guard`. -/
def Run.Meets (Guard : σ → ι → Prop) (history : List (σ × ι)) : Prop :=
  ∀ entry ∈ history, Guard entry.1 entry.2

theorem Run.meets_append :
    Run.Meets Guard (history ++ [(s, input)]) ↔ Run.Meets Guard history ∧ Guard s input := by
  simp [Run.Meets, or_imp, forall_and]

theorem Run.invariant (Inv : σ → Prop) (hstart : Inv start)
    (hstep : ∀ {s input s'}, Inv s → Guard s input → step s input = .ok s' → Inv s')
    (hrun : Run step start history s) (hguard : Run.Meets Guard history) : Inv s := by
  induction hrun with
  | nil => exact hstart
  | snoc _ htaken ih =>
    rw [Run.meets_append] at hguard
    exact hstep (ih hguard.1) hguard.2 htaken

/-- Every state a run visits, the last one included, satisfies `Law`. -/
def Run.Always (Law : σ → Prop) (history : List (σ × ι)) (s : σ) : Prop :=
  (∀ entry ∈ history, Law entry.1) ∧ Law s

theorem Run.always_iff (Inv : σ → Prop) {Law : σ → Prop} {Allowed : σ → ι → Prop}
    (hinv : Inv start) (hlaw : Law start)
    (hstep : ∀ {s input s'}, Inv s → Allowed s input → step s input = .ok s' → Inv s')
    (hexact : ∀ {s input s'}, Inv s → Law s → Allowed s input → step s input = .ok s' →
      (Law s' ↔ Guard s input))
    (hrun : Run step start history s) (hallowed : Run.Meets Allowed history) :
    Run.Always Law history s ↔ Run.Meets Guard history := by
  have hall : Inv s ∧ (Run.Always Law history s ↔ Run.Meets Guard history) := by
    induction hrun with
    | nil => exact ⟨hinv, by simp [Run.Always, Run.Meets, hlaw]⟩
    | @snoc history s s' input hprefix htaken ih =>
      rw [Run.meets_append] at hallowed
      obtain ⟨hs, hiff⟩ := ih hallowed.1
      refine ⟨hstep hs hallowed.2 htaken, ?_⟩
      rw [Run.meets_append, ← hiff]
      constructor
      · rintro ⟨hbefore, hafter⟩
        have hlaws : Law s := hbefore (s, input) (by simp)
        exact ⟨⟨fun entry hentry => hbefore entry (by simp [hentry]), hlaws⟩,
          (hexact hs hlaws hallowed.2 htaken).mp hafter⟩
      · rintro ⟨⟨hbefore, hlaws⟩, hguard⟩
        refine ⟨?_, (hexact hs hlaws hallowed.2 htaken).mpr hguard⟩
        intro entry hentry
        rcases List.mem_append.mp hentry with hentry | hentry
        · exact hbefore entry hentry
        · rw [List.mem_singleton.mp hentry]
          exact hlaws
  exact hall.2

theorem Run.persists (P : σ → Prop)
    (hkeep : ∀ {s input s'}, Guard s input → step s input = .ok s' → P s → P s')
    (hrun : Run step start history s) (hguard : Run.Meets Guard history) (hentry : entry ∈ history)
    (hmade : ∀ s', step entry.1 entry.2 = .ok s' → P s') : P s := by
  induction hrun with
  | nil => exact absurd hentry List.not_mem_nil
  | snoc _ htaken ih =>
    rw [Run.meets_append] at hguard
    rcases List.mem_append.mp hentry with hbefore | hlast
    · exact hkeep hguard.2 htaken (ih hguard.1 hbefore)
    · rw [List.mem_singleton.mp hlast] at hmade
      exact hmade _ htaken

/-- Where the content of a slot comes from.  `Opens` inputs fill it, `Closes` inputs empty it and all
others can at most change what is in it, so that what is found in it was put there by an `Opens` input
after which no other one of the two kinds was taken. -/
theorem Run.origin {ρ : Type*} (Inv : σ → Prop) (slot : σ → Option ρ) {Opens Closes : ι → Prop}
    (Origin : σ → ι → List (σ × ι) → ρ → Prop) (hstart : Inv start) (hempty : slot start = none)
    (hinv : ∀ {s input s'}, Inv s → step s input = .ok s' → Inv s')
    (hopens : ∀ {s input s' r}, Inv s → Opens input → step s input = .ok s' → slot s' = some r →
      Origin s input [] r)
    (hcloses : ∀ {s input s'}, Inv s → Closes input → step s input = .ok s' → slot s' = none)
    (hkeeps : ∀ {s input s' r'}, Inv s → ¬ Opens input → ¬ Closes input → step s input = .ok s' →
      slot s' = some r' → ∃ r, slot s = some r ∧ ∀ {s₀ input₀ between},
        Origin s₀ input₀ between r → Origin s₀ input₀ (between ++ [(s, input)]) r')
    {r : ρ} (hrun : Run step start history s) (hslot : slot s = some r) :
    ∃ before s₀ input₀ between, history = before ++ (s₀, input₀) :: between ∧ Opens input₀ ∧
      Origin s₀ input₀ between r ∧ ∀ entry ∈ between, ¬ Opens entry.2 ∧ ¬ Closes entry.2 := by
  have hall : Inv s ∧ ∀ r, slot s = some r →
      ∃ before s₀ input₀ between, history = before ++ (s₀, input₀) :: between ∧ Opens input₀ ∧
        Origin s₀ input₀ between r ∧ ∀ entry ∈ between, ¬ Opens entry.2 ∧ ¬ Closes entry.2 := by
    clear hslot
    induction hrun with
    | nil =>
      refine ⟨hstart, fun r hslot => ?_⟩
      rw [hempty] at hslot
      cases hslot
    | @snoc history s s' input _ htaken ih =>
      obtain ⟨hs, horigin⟩ := ih
      refine ⟨hinv hs htaken, fun r' hslot => ?_⟩
      by_cases hopen : Opens input
      · exact ⟨history, s, input, [], rfl, hopen, hopens hs hopen htaken hslot, by simp⟩
      by_cases hclose : Closes input
      · rw [hcloses hs hclose htaken] at hslot
        cases hslot
      obtain ⟨r, hr, hmoves⟩ := hkeeps hs hopen hclose htaken hslot
      obtain ⟨before, s₀, input₀, between, rfl, hopen₀, hr₀, hbetween⟩ := horigin r hr
      refine ⟨before, s₀, input₀, between ++ [(s, input)], by simp, hopen₀, hmoves hr₀, ?_⟩
      intro entry hentry
      rcases List.mem_append.mp hentry with hentry | hentry
      · exact hbetween entry hentry
      · rw [List.mem_singleton.mp hentry]
        exact ⟨hopen, hclose⟩
  exact hall.2 r hslot

/-! ## Running a list of inputs -/

/-- The history of taking `inputs` one after the other, up to the first that fails. -/
def Run.historyOf (step : σ → ι → Except ε σ) (start : σ) : List ι → List (σ × ι)
  | [] => []
  | input :: inputs =>
    match step start input with
    | .error _ => []
    | .ok s => (start, input) :: historyOf step s inputs

theorem Run.cons (htaken : step start input = .ok middle) (hrun : Run step middle history s) :
    Run step start ((start, input) :: history) s := by
  induction hrun with
  | nil => exact Run.snoc .nil htaken
  | snoc _ hlast ih => exact ih.snoc hlast

theorem foldlM_cons_eq_ok : (input :: inputs).foldlM step s = .ok s' ↔
    ∃ middle, step s input = .ok middle ∧ inputs.foldlM step middle = .ok s' := by
  rw [List.foldlM_cons, bind_eq_ok]

theorem foldlM_cons_of_ok (htaken : step s input = .ok middle)
    (hrest : inputs.foldlM step middle = .ok s') : (input :: inputs).foldlM step s = .ok s' :=
  foldlM_cons_eq_ok.mpr ⟨middle, htaken, hrest⟩

theorem foldlM_append_of_ok {inputs' : List ι} (htaken : inputs.foldlM step s = .ok middle)
    (hrest : inputs'.foldlM step middle = .ok s') :
    (inputs ++ inputs').foldlM step s = .ok s' := by
  rw [List.foldlM_append, htaken]
  exact hrest

theorem Run.of_foldlM (h : inputs.foldlM step start = .ok s) :
    Run step start (Run.historyOf step start inputs) s := by
  induction inputs generalizing start with
  | nil =>
    cases h
    exact .nil
  | cons input inputs ih =>
    obtain ⟨middle, htaken, hrest⟩ := foldlM_cons_eq_ok.mp h
    rw [Run.historyOf, htaken]
    exact Run.cons htaken (ih hrest)

theorem Run.historyOf_inputs (h : inputs.foldlM step start = .ok s) :
    (Run.historyOf step start inputs).map Prod.snd = inputs := by
  induction inputs generalizing start with
  | nil => rfl
  | cons input inputs ih =>
    obtain ⟨middle, htaken, hrest⟩ := foldlM_cons_eq_ok.mp h
    rw [Run.historyOf, htaken, List.map_cons, ih hrest]

/-- The inputs can be taken one after the other and lead to a state that passes a test. -/
def Run.leadsTo (step : σ → ι → Except ε σ) (start : σ) (inputs : List ι) (test : σ → Bool) : Bool :=
  match inputs.foldlM step start with
  | .error _ => false
  | .ok s => test s

theorem Run.exists_of_leadsTo {test : σ → Bool} (h : Run.leadsTo step start inputs test = true) :
    ∃ s, inputs.foldlM step start = .ok s ∧ test s = true := by
  unfold Run.leadsTo at h
  cases hfold : inputs.foldlM step start with
  | error fault => simp [hfold] at h
  | ok s => exact ⟨s, rfl, by simpa [hfold] using h⟩

theorem Run.of_leadsTo (step : σ → ι → Except ε σ) (start : σ) (inputs : List ι) (test : σ → Bool)
    (h : Run.leadsTo step start inputs test = true) :
    ∃ s, Run step start (Run.historyOf step start inputs) s ∧ test s = true := by
  obtain ⟨s, hfold, htest⟩ := Run.exists_of_leadsTo h
  exact ⟨s, Run.of_foldlM hfold, htest⟩

instance (Guard : σ → ι → Prop) [∀ s input, Decidable (Guard s input)] (history : List (σ × ι)) :
    Decidable (Run.Meets Guard history) :=
  inferInstanceAs (Decidable (∀ entry ∈ history, _))

theorem foldlM_invariant (Inv : σ → Prop) (hstart : Inv s)
    (hstep : ∀ {t input t'}, input ∈ inputs → Inv t → step t input = .ok t' → Inv t')
    (h : inputs.foldlM step s = .ok s') : Inv s' := by
  induction inputs generalizing s with
  | nil =>
    cases h
    exact hstart
  | cons input inputs ih =>
    obtain ⟨t, htaken, hrest⟩ := foldlM_cons_eq_ok.mp h
    exact ih (hstep (by simp) hstart htaken) (fun hmem => hstep (by simp [hmem])) hrest

theorem foldlM_invariant_rest (Inv : List ι → σ → Prop) (hstart : Inv inputs s)
    (hstep : ∀ {t input rest t'}, Inv (input :: rest) t → step t input = .ok t' → Inv rest t')
    (h : inputs.foldlM step s = .ok s') : Inv [] s' := by
  induction inputs generalizing s with
  | nil =>
    cases h
    exact hstart
  | cons input inputs ih =>
    obtain ⟨t, htaken, hrest⟩ := foldlM_cons_eq_ok.mp h
    exact ih (hstep hstart htaken) hrest

/-- The induction over a loop whose rounds succeed exactly for inputs in `Fits`.  The invariant speaks
about the rounds already made. -/
theorem foldlM_tracks (Inv : List ι → σ → Prop) (Fits : ι → Prop) (hstart : Inv [] s)
    (hstep : ∀ {done input rest t}, inputs = done ++ input :: rest → Inv done t → Fits input →
      ∃ t', step t input = .ok t' ∧ Inv (done ++ [input]) t')
    (hfits : ∀ {done input rest t t'}, inputs = done ++ input :: rest → Inv done t →
      step t input = .ok t' → Fits input) :
    ((∃ s', inputs.foldlM step s = .ok s') ↔ ∀ input ∈ inputs, Fits input) ∧
      ∀ s', inputs.foldlM step s = .ok s' → Inv inputs s' := by
  suffices hrest : ∀ {rest done t}, inputs = done ++ rest → Inv done t →
      ((∃ s', rest.foldlM step t = .ok s') ↔ ∀ input ∈ rest, Fits input) ∧
        ∀ s', rest.foldlM step t = .ok s' → Inv inputs s' from
    hrest (List.nil_append inputs).symm hstart
  intro rest
  induction rest with
  | nil =>
    intro done t hsplit ht
    refine ⟨⟨fun _ _ h => (List.not_mem_nil h).elim, fun _ => ⟨t, rfl⟩⟩, ?_⟩
    rintro s' h
    cases h
    rwa [hsplit, List.append_nil]
  | cons input rest ih =>
    intro done t hsplit ht
    rw [List.foldlM_cons, List.forall_mem_cons]
    cases htaken : step t input with
    | error fault =>
      have hnot : ¬ Fits input := by
        intro hinput
        obtain ⟨t', ht', -⟩ := hstep hsplit ht hinput
        rw [htaken] at ht'
        cases ht'
      simp [bind, Except.bind, hnot]
    | ok t' =>
      have hinput := hfits hsplit ht htaken
      obtain ⟨t'', ht'', hinv⟩ := hstep hsplit ht hinput
      rw [htaken] at ht''
      cases ht''
      have hnext := ih (by rw [hsplit, List.append_assoc, List.singleton_append]) hinv
      simpa [bind, Except.bind, hinput] using hnext

/-! ## Loops with a test -/

/-- `for test { body }`, for at most so many rounds. -/
def loopWhile (test : σ → Bool) (body : σ → Except ε σ) : ℕ → σ → Except ε σ
  | 0, s => .ok s
  | fuel + 1, s =>
    if test s then do
      let s ← body s
      loopWhile test body fuel s
    else .ok s

theorem loopWhile_spec {test : σ → Bool} {body : σ → Except ε σ} (Inv : σ → Prop) (rounds : σ → ℕ)
    (hrounds : ∀ {t}, Inv t → test t = true → 0 < rounds t)
    (hbody : ∀ {t t'}, Inv t → test t = true → body t = .ok t' → Inv t' ∧ rounds t' < rounds t)
    {fuel : ℕ} (hstart : Inv s) (hfuel : rounds s ≤ fuel)
    (h : loopWhile test body fuel s = .ok s') : Inv s' ∧ test s' = false := by
  induction fuel generalizing s with
  | zero =>
    cases h
    refine ⟨hstart, ?_⟩
    by_contra htest
    have hpos := hrounds hstart (by simpa using htest)
    omega
  | succ fuel ih =>
    rw [loopWhile] at h
    split_ifs at h with htest
    · obtain ⟨t, ht, hrest⟩ := bind_eq_ok.mp h
      obtain ⟨hinv, hless⟩ := hbody hstart htest ht
      exact ih hinv (by omega) hrest
    · cases h
      exact ⟨hstart, by simpa using htest⟩

end Tepleton.Lib
