import Tepleton.Baseapp.Atomicity

/-!
# Restarting after a commit

A fresh `BaseApp` that has loaded the latest version has the committed stores and nothing else.  The
deliver state and the validators that signed are set again in the next `BeginBlock`, but the check
state only in the next `Commit`.  Until then every `CheckTx` and `Simulate` that gets past the basic
checks dereferences `nil`, and the client is told of an internal error (`restart_breaks_checkTx`).

Where no such call is made, the two applications are bisimilar: they differ in the check state, which
nothing reads, and outside of a block in the validators that signed, until the commit makes them
equal.
-/

namespace Tepleton.Baseapp

open Lib Store

variable {Key Tx Msg : Type}

/-- A fresh `BaseApp` after `LoadLatestVersion`, on the database of another one that has just
committed. -/
def restart (a : BaseApp Key) : BaseApp Key := loaded a.cms

/-! ## Calls that need the check state -/

variable (app : Application Key Tx Msg)

/-- The bytes decode to a transaction that gets past the basic checks. -/
def DecodesValid (txBytes : Bytes) : Prop :=
  match app.txDecoder txBytes with
  | .error _ => False
  | .ok tx => Valid app tx

instance (txBytes : Bytes) : Decidable (DecodesValid app txBytes) := by
  unfold DecodesValid
  split <;> infer_instance

/-- The path of a query, split at its slashes. -/
def queryPath (req : RequestQuery) : List String :=
  let split := req.path.splitOn "/"
  if split.head? = some "" then split.tail else split

/-- A `CheckTx` or `Simulate`, also by a query, of a transaction that gets past the basic checks. -/
def Call.ReadsCheckState : Call Tx → Prop
  | .checkTx txBytes => DecodesValid app txBytes
  | .simulate tx => Valid app tx
  | .query req => (queryPath req).take 2 = ["app", "simulate"] ∧ DecodesValid app req.data
  | _ => False

instance (call : Call Tx) : Decidable (call.ReadsCheckState app) := by
  unfold Call.ReadsCheckState
  split <;> infer_instance

/-- `Commit`. -/
def Call.isCommit : Call Tx → Bool
  | .commit => true
  | _ => false

/-- `InitChain`, which is only called before the first block. -/
def Call.isInitChain : Call Tx → Bool
  | .initChain _ => true
  | _ => false

variable [DecidableEq Key]

theorem runTx_of_not_valid (mode : RunTxMode) (txBytes : Option Bytes) {tx : Tx}
    (h : ¬ Valid app tx) : ∃ result, ∀ a : BaseApp Key, runTx app mode txBytes tx a = (result, a) := by
  obtain ⟨result, hresult⟩ := basicChecks_of_not_valid app h
  refine ⟨result, fun a => ?_⟩
  simp only [runTx, runTxOn, hresult]
  split_ifs <;> rfl

variable {call : Call Tx} {a b : BaseApp Key}

/-- A call that is not made by the consensus engine and does not need the check state is answered by
the committed stores. -/
theorem step_of_not_readsCheckState (hcall : call.isConsensus = false)
    (h : ¬ call.ReadsCheckState app) (hcms : a.cms = b.cms) :
    ∃ response, step app a call = .ok (response, a) ∧ step app b call = .ok (response, b) := by
  cases call with
  | checkTx txBytes =>
    simp only [step, checkTx]
    simp only [Call.ReadsCheckState, DecodesValid] at h
    cases hdecode : app.txDecoder txBytes with
    | error err => exact ⟨_, rfl, rfl⟩
    | ok tx =>
      simp only [hdecode] at h
      obtain ⟨result, hrun⟩ := runTx_of_not_valid app .check (some txBytes) h
      simp only [hrun]
      exact ⟨_, rfl, rfl⟩
  | simulate tx =>
    obtain ⟨result, hrun⟩ := runTx_of_not_valid app .simulate none h
    simp only [step, simulate, hrun]
    exact ⟨_, rfl, rfl⟩
  | query req =>
    simp only [Call.ReadsCheckState, DecodesValid, queryPath, not_and] at h
    simp only [step, query]
    split
    · rename_i path rest hpath
      have hsimulate := h (by rw [hpath]; rfl)
      cases hdecode : app.txDecoder req.data with
      | error err => exact ⟨_, rfl, rfl⟩
      | ok tx =>
        simp only [hdecode] at hsimulate
        obtain ⟨result, hrun⟩ := runTx_of_not_valid app .simulate none hsimulate
        simp only [simulate, hrun]
        exact ⟨_, rfl, rfl⟩
    all_goals exact ⟨_, rfl, by simp only [hcms]⟩
  | initChain req => cases hcall
  | beginBlock req => cases hcall
  | deliverTx txBytes => cases hcall
  | endBlock height => cases hcall
  | commit => cases hcall

/-! ## The bisimulation -/

/-- `b` continues where `a` has committed: it may have another check state, and outside of a block
other validators that signed. -/
structure Resumes (a b : BaseApp Key) : Prop where
  cms : b.cms = a.cms
  deliverState : b.deliverState = a.deliverState
  signedValidators (h : a.deliverState ≠ none) : b.signedValidators = a.signedValidators

omit [DecidableEq Key] in
theorem Resumes.of_consensusPart (h : a.consensusPart = b.consensusPart) : Resumes a b := by
  obtain ⟨checkState, rfl⟩ := exists_checkState h
  exact ⟨rfl, rfl, fun _ => rfl⟩

omit [DecidableEq Key] in
theorem Resumes.consensusPart (h : Resumes a b) (hblock : a.deliverState ≠ none) :
    a.consensusPart = b.consensusPart := by
  simp only [BaseApp.consensusPart, h.cms, h.deliverState, h.signedValidators hblock]

theorem step_resumes_of_block (h : Resumes a b) (hblock : a.deliverState ≠ none)
    (hcall : call.isConsensus = true) : Alike Resumes (step app a call) (step app b call) := by
  have hboth := step_consistent app hcall (h.consensusPart hblock)
  cases ha : step app a call with
  | error fault =>
    cases hb : step app b call with
    | error fault' =>
      rw [ha, hb] at hboth
      cases hboth
      rfl
    | ok result' =>
      rw [ha, hb] at hboth
      cases hboth
  | ok result =>
    cases hb : step app b call with
    | error fault' =>
      rw [ha, hb] at hboth
      cases hboth
    | ok result' =>
      rw [ha, hb] at hboth
      obtain ⟨hresponse, hpart⟩ := Prod.mk.inj (Except.ok.inj hboth)
      exact ⟨hresponse, .of_consensusPart hpart⟩

/-- Outside of a block nothing reads the validators that signed, and `BeginBlock` sets them. -/
theorem step_resumes_of_no_block (h : Resumes a b) (hblock : a.deliverState = none)
    (hcall : call.isConsensus = true) (hinit : call.isInitChain = false) : Alike Resumes
    (step app a call) (step app b call) := by
  obtain ⟨cms, checkState, deliverState, signedValidators⟩ := a
  obtain ⟨cms', checkState', deliverState', signedValidators'⟩ := b
  obtain ⟨rfl, rfl, -⟩ := h
  cases hblock
  cases call with
  | initChain req => cases hinit
  | beginBlock req =>
    simp only [step, beginBlock]
    cases app.beginBlocker with
    | none => exact ⟨rfl, rfl, rfl, fun _ => rfl⟩
    | some beginBlocker =>
      simp only [runOnDeliverState]
      split
      · rename_i value machine hrun
        exact rfl
      · rename_i tags machine hrun
        exact ⟨rfl, rfl, rfl, fun _ => rfl⟩
  | deliverTx txBytes =>
    simp only [step, deliverTx]
    cases app.txDecoder txBytes with
    | error err => exact ⟨rfl, rfl, rfl, fun hsome => absurd rfl hsome⟩
    | ok tx =>
      simp only [runTx, if_true, runTxOn]
      cases basicChecks app tx with
      | inl result | inr msgs => exact ⟨rfl, rfl, rfl, fun hsome => absurd rfl hsome⟩
  | endBlock height =>
    simp only [step, endBlock]
    cases app.endBlocker with
    | none => exact ⟨rfl, rfl, rfl, fun hsome => absurd rfl hsome⟩
    | some endBlocker => exact rfl
  | commit => exact rfl
  | checkTx txBytes => cases hcall
  | simulate tx => cases hcall
  | query req => cases hcall

omit [DecidableEq Key] in
theorem commit_resumes (h : Resumes a b) : Alike Eq (commit app a) (commit app b) := by
  rw [commit, commit, h.deliverState]
  cases hstate : a.deliverState with
  | none => exact rfl
  | some st =>
    have hsigned := h.signedValidators (by simp [hstate])
    refine ⟨by rw [h.cms], ?_⟩
    simp only [h.cms, hsigned]

/-- No call before the next commit needs the check state. -/
def QuietUntilCommit (calls : List (Call Tx)) : Prop :=
  ∀ call ∈ calls.takeWhile (fun call => !call.isCommit), ¬ call.ReadsCheckState app

instance (calls : List (Call Tx)) : Decidable (QuietUntilCommit app calls) :=
  inferInstanceAs (Decidable (∀ call ∈ _, _))

/-- The relation that is kept, with the calls still to come. -/
def Indistinguishable (calls : List (Call Tx)) (a b : BaseApp Key) : Prop :=
  a = b ∨ Resumes a b ∧ QuietUntilCommit app calls ∧ ∀ call ∈ calls, call.isInitChain = false

theorem step_indistinguishable {calls : List (Call Tx)}
    (h : Indistinguishable app (call :: calls) a b) :
    Alike (Indistinguishable app calls) (step app a call) (step app b call) := by
  rcases h with rfl | ⟨hresumes, hquiet, hinit⟩
  · exact Alike.refl (fun a => .inl rfl) _
  rw [List.forall_mem_cons] at hinit
  by_cases hcommit : call.isCommit = true
  · -- from here on the states are equal
    obtain rfl : call = .commit := by cases call <;> first | rfl | cases hcommit
    exact (commit_resumes app hresumes).imp .inl
  · rw [QuietUntilCommit, List.takeWhile_cons_of_pos (by simpa using hcommit),
      List.forall_mem_cons] at hquiet
    have hrest : ∀ {a b : BaseApp Key}, Resumes a b → Indistinguishable app calls a b :=
      fun h => .inr ⟨h, hquiet.2, hinit.2⟩
    cases hcall : call.isConsensus with
    | true =>
      have halike : Alike Resumes (step app a call) (step app b call) := by
        by_cases hblock : a.deliverState = none
        · exact step_resumes_of_no_block app hresumes hblock hcall hinit.1
        · exact step_resumes_of_block app hresumes hblock hcall
      exact halike.imp hrest
    | false =>
      obtain ⟨response, ha, hb⟩ := step_of_not_readsCheckState app hcall hquiet.1
        hresumes.cms.symm
      rw [ha, hb]
      exact ⟨rfl, hrest hresumes⟩

/-- A restart right after a commit changes no later answer, if no `CheckTx` or `Simulate` that gets
past the basic checks comes before the next commit. -/
theorem restart_transparent {b a : BaseApp Key} {response : Response}
    (hcommit : commit app b = .ok (response, a)) {calls : List (Call Tx)}
    (hinit : ∀ call ∈ calls, call.isInitChain = false) (hquiet : QuietUntilCommit app calls) :
    outputs (step app) (restart a) calls = outputs (step app) a calls := by
  have hnone : a.deliverState = none := by
    rw [commit] at hcommit
    split at hcommit
    · cases hcommit
    · cases hcommit
      rfl
  have hresumes : Resumes a (restart a) := ⟨rfl, hnone.symm, fun hsome => absurd hnone hsome⟩
  exact (outputs_eq (Indistinguishable app) (step_indistinguishable app)
    (.inr ⟨hresumes, hquiet, hinit⟩)).symm

/-- A block with one transaction, after a `CheckTx` that is rejected at once. -/
def nextBlock : List (Call (List Byte)) :=
  [.checkTx [], .beginBlock ⟨{ height := 2 }, [], []⟩, .deliverTx [1], .endBlock 2, .commit,
    .checkTx [2]]

/-- The codes of the responses that have one. -/
def codes (responses : List (Except GoPanic Response)) : List ℕ :=
  responses.filterMap fun response =>
    match response with
    | .ok (.checkTx result) => some result.code
    | .ok (.deliverTx code _ _ _ _ _) => some code
    | _ => none

theorem restart_transparent_nextBlock :
    ∃ a response, commit notes inBlock = .ok (response, a) ∧
      outputs (step notes) (restart a) nextBlock = outputs (step notes) a nextBlock ∧
      codes (outputs (step notes) (restart a) nextBlock) = [65537, 0, 0] := by
  refine ⟨_, _, rfl, ?_, by decide +kernel⟩
  exact restart_transparent notes (b := inBlock) rfl (by decide +kernel) (by decide +kernel)

/-- After a restart the first transaction that is checked gets an internal error, where it would have
passed. -/
theorem restart_breaks_checkTx :
    ∃ a response, commit notes inBlock = .ok (response, a) ∧
      codes (outputs (step notes) a [.checkTx [1]]) = [0] ∧
      codes (outputs (step notes) (restart a) [.checkTx [1]]) = [65537] :=
  ⟨_, _, rfl, by decide +kernel, by decide +kernel⟩

end Tepleton.Baseapp
