import Tepleton.Auth.Ante

/-!
# How a call of the ante handler ends

The rounds of the ante handler are all alike, except that the first one also collects the fee.  A
round either stops, having changed nothing but perhaps the collected fees, or it saves one account.
`AnteEnd` puts the rounds together: the call stops before the first account is saved, or it saves the
accounts of the first signers and stops, or it saves those of all of them and passes.

From this follow what a passing transaction proves about its signers (`passed_signed`), and which
rejected transactions leave a trace (`aborted_unchanged_iff`): exactly those whose first signer was
accepted, since a later signer is only looked at after the first one's account has been saved.
-/

namespace Tepleton.Auth

open Lib Baseapp Bank

variable {Msg β : Type} (env : Env Msg) (chainID : String) (tx : StdTx Msg)

/-! ## What is checked, without gas -/

/-- What `processSig` makes of an account if the gas suffices. -/
def acceptSig (addr : Address) (sig : StdSignature) (acc : Option Account) :
    Except SdkError Account :=
  match checkAccount env addr sig acc with
  | .error err => .error err
  | .ok (pubKey, acc) =>
    if env.verifyBytes pubKey (signBytesOf env chainID tx sig) sig.signature then .ok acc
    else .error (errUnauthorized "signature verification failed")

/-- What the first signer's account is after paying the fee. -/
def chargeFee (fee : StdFee) (acc : Account) : Except Stop Account :=
  if fee.amount.isZero then .ok acc else deductFees acc fee

/-- The coins of the first signer after a fee has been paid from them. -/
def Charged (fee : StdFee) (before after : Coins) : Prop :=
  if fee.amount.isZero then after = before
  else before.minus fee.amount = .ok after ∧ after.isNotNegative = true

/-- The collected fees after a fee has been collected. -/
def Collected (fee : StdFee) (before after : Option Coins) : Prop :=
  if fee.amount.isZero then after = before
  else ∃ coins, (before.getD []).plus fee.amount = .ok coins ∧ after = some coins

/-- The signers with their signatures. -/
def StdTx.entries : List (Address × StdSignature) := (tx.getSigners env).zip tx.signatures

/-- The checks before the loop. -/
def StdTx.WellFormed : Prop :=
  tx.signatures ≠ [] ∧ tx.memo.length ≤ maxMemoCharacters ∧
    tx.signatures.length = (tx.getSigners env).length

instance : Decidable (tx.WellFormed env) := inferInstanceAs (Decidable (_ ∧ _ ∧ _))

/-- The first signer's signature is in order and the first signer can pay the fee. -/
def acceptsFirst (s : AnteState) : Bool :=
  match tx.entries env with
  | [] => false
  | (addr, sig) :: _ =>
    match acceptSig env chainID tx addr sig (s.accounts.getAccount addr) with
    | .error _ => false
    | .ok acc => (chargeFee tx.fee acc).toBool

/-! ## One round -/

variable {env chainID tx} {meter : GasMeter} {s s' : AnteState} {addr : Address} {sig : StdSignature}

/-- What `acceptSig` has established: the account was there, with the numbers of the signature, and
the signature verifies under a key that belongs to it. -/
structure Signed (env : Env Msg) (chainID : String) (tx : StdTx Msg) (addr : Address)
    (sig : StdSignature) (acc acc' : Account) (pubKey : PubKey) : Prop where
  verifies : env.verifyBytes pubKey
    (stdSignBytes env chainID acc.accountNumber acc.sequence tx.fee tx.msgs tx.memo)
    sig.signature = true
  bound : acc.pubKey = some pubKey ∨ acc.pubKey = none ∧ env.address pubKey = addr
  sequence : sig.sequence = acc.sequence
  saved : acc' = { acc with sequence := int64 (acc.sequence + 1), pubKey := some pubKey }

theorem checkAccount_eq_ok {acc : Option Account} {acc' : Account} {pubKey : PubKey}
    (h : checkAccount env addr sig acc = .ok (pubKey, acc')) :
    ∃ old, acc = some old ∧ sig.accountNumber = old.accountNumber ∧ sig.sequence = old.sequence ∧
      (old.pubKey = some pubKey ∨ old.pubKey = none ∧ env.address pubKey = addr) ∧
      acc' = { old with sequence := int64 (old.sequence + 1), pubKey := some pubKey } := by
  cases acc with
  | none => cases h
  | some old =>
    rw [checkAccount] at h
    split_ifs at h with hnumber hsequence
    rw [not_not] at hnumber hsequence
    refine ⟨old, rfl, hnumber.symm, hsequence.symm, ?_⟩
    cases hkey : old.pubKey with
    | some key =>
      simp only [hkey] at h
      cases h
      exact ⟨.inl rfl, rfl⟩
    | none =>
      simp only [hkey] at h
      split at h
      · cases h
      · split_ifs at h with haddress
        cases h
        exact ⟨.inr ⟨rfl, not_not.mp haddress⟩, rfl⟩

theorem acceptSig_eq_ok {acc : Option Account} {acc' : Account}
    (h : acceptSig env chainID tx addr sig acc = .ok acc') :
    ∃ old pubKey, acc = some old ∧ Signed env chainID tx addr sig old acc' pubKey := by
  rw [acceptSig] at h
  split at h
  · cases h
  · rename_i pubKey checked hchecked
    split_ifs at h with hverify
    cases h
    obtain ⟨old, hacc, hnumber, hsequence, hbound, hsaved⟩ := checkAccount_eq_ok hchecked
    rw [signBytesOf, hnumber, hsequence] at hverify
    exact ⟨old, pubKey, hacc, hverify, hbound, hsequence, hsaved⟩

/-- `processSig` changes nothing. -/
theorem run_processSig_cases {r : Except Stop (Account × GasMeter)}
    (h : (processSig env addr sig (signBytesOf env chainID tx sig)).run env meter s = (r, s')) :
    s' = s ∧ ((∃ value, r = .error (.panic value)) ∨
      (∃ err, r = .error (.abort err) ∧
        acceptSig env chainID tx addr sig (s.accounts.getAccount addr) = .error err) ∨
      ∃ acc meter', r = .ok (acc, meter') ∧
        acceptSig env chainID tx addr sig (s.accounts.getAccount addr) = .ok acc) := by
  rw [processSig] at h
  rcases run_getAccount_cases h with ⟨hs, hpanic⟩ | ⟨meter', h⟩
  · exact ⟨hs, .inl hpanic⟩
  · rw [acceptSig]
    cases hcheck : checkAccount env addr sig (s.accounts.getAccount addr) with
    | error err =>
      simp only [hcheck] at h
      cases h
      exact ⟨rfl, .inr (.inl ⟨err, rfl, rfl⟩)⟩
    | ok pair =>
      simp only [hcheck] at h ⊢
      rcases run_consumeGas_cases h with ⟨hs, hpanic⟩ | ⟨meter'', h⟩
      · exact ⟨hs, .inl hpanic⟩
      · split_ifs at h ⊢ with hverify
        · cases h
          exact ⟨rfl, .inr (.inr ⟨_, _, rfl, rfl⟩)⟩
        · cases h
          exact ⟨rfl, .inr (.inl ⟨_, rfl, rfl⟩)⟩

theorem run_processSig_eq_ok {acc : Account} {meter' : GasMeter}
    (h : (processSig env addr sig (signBytesOf env chainID tx sig)).run env meter s =
      (.ok (acc, meter'), s')) :
    s' = s ∧ acceptSig env chainID tx addr sig (s.accounts.getAccount addr) = .ok acc := by
  obtain ⟨hs, ⟨_, heq⟩ | ⟨_, heq, _⟩ | ⟨_, _, heq, haccept⟩⟩ := run_processSig_cases h
  · cases heq
  · cases heq
  · cases heq
    exact ⟨hs, haccept⟩

theorem run_addCollectedFees_cases {coins : Coins} {r : Except Stop (Unit × GasMeter)}
    (h : (addCollectedFees coins).run env meter s = (r, s')) :
    Panicked s r s' ∨ ∃ newCoins meter', (s.collectedFees.getD []).plus coins = .ok newCoins ∧
      r = .ok ((), meter') ∧ s' = { s with collectedFees := some newCoins } := by
  rw [addCollectedFees] at h
  rcases run_getCollectedFees_cases h with hpanic | ⟨meter', h⟩
  · exact .inl hpanic
  · cases hplus : (s.collectedFees.getD []).plus coins with
    | error fault =>
      simp only [hplus, coinsOr, ofExcept] at h
      cases h
      exact .inl ⟨rfl, _, rfl⟩
    | ok newCoins =>
      simp only [hplus, coinsOr, ofExcept] at h
      rcases run_setCollectedFees_cases h with hpanic | ⟨meter'', hr, hs⟩
      · exact .inl hpanic
      · exact .inr ⟨newCoins, meter'', rfl, hr, hs⟩

/-- Paying the fee stops without a trace, or the fee is collected. -/
theorem run_payFee_cases {fee : StdFee} {acc : Account} {r : Except Stop (Account × GasMeter)}
    (h : (payFee fee acc).run env meter s = (r, s')) :
    Panicked s r s' ∨
      (s' = s ∧ ∃ reason, r = .error reason ∧ chargeFee fee acc = .error reason) ∨
      ∃ acc' meter', r = .ok (acc', meter') ∧ chargeFee fee acc = .ok acc' ∧
        Collected fee s.collectedFees s'.collectedFees ∧ s'.accounts = s.accounts := by
  rw [payFee] at h
  rw [chargeFee]
  by_cases hzero : fee.amount.isZero = true
  · simp only [hzero, if_true] at h ⊢
    cases h
    exact .inr (.inr ⟨acc, meter, rfl, rfl, by rw [Collected, if_pos hzero], rfl⟩)
  · simp only [hzero, if_false, Bool.false_eq_true] at h ⊢
    rcases run_consumeGas_cases h with hpanic | ⟨meter', h⟩
    · exact .inl hpanic
    · cases hdeduct : deductFees acc fee with
      | error reason =>
        simp only [hdeduct, ofExcept] at h
        cases h
        exact .inr (.inl ⟨rfl, reason, rfl, rfl⟩)
      | ok acc' =>
        simp only [hdeduct, ofExcept] at h
        change (addCollectedFees fee.amount >>= fun _ => pure acc').run env meter' s = (r, s') at h
        rcases run_bind_cases h with ⟨reason, hadd, hr⟩ | ⟨_, meter'', middle, hadd, h⟩
        · rcases run_addCollectedFees_cases hadd with ⟨hs, value, heq⟩ | ⟨_, _, _, heq, _⟩
          · cases heq
            exact .inl ⟨hs, value, hr⟩
          · cases heq
        · rcases run_addCollectedFees_cases hadd with ⟨_, value, heq⟩ | ⟨newCoins, _, hplus, _, rfl⟩
          · cases heq
          · cases h
            refine .inr (.inr ⟨acc', meter'', rfl, rfl, ?_, rfl⟩)
            rw [Collected, if_neg hzero]
            exact ⟨newCoins, hplus, rfl⟩

theorem run_round_cases {r : Except Stop (Account × GasMeter)}
    (h : (round env chainID tx false addr sig).run env meter s = (r, s')) :
    (s' = s ∧ ∃ reason, r = .error reason) ∨
      ∃ acc meter', r = .ok (acc, meter') ∧
        acceptSig env chainID tx addr sig (s.accounts.getAccount addr) = .ok acc ∧
        s' = { s with accounts := s.accounts.setAccount addr acc } := by
  rw [round] at h
  rcases run_bind_cases h with ⟨reason, hsig, hr⟩ | ⟨acc, meter', middle, hsig, hrest⟩
  · exact .inl ⟨(run_processSig_cases hsig).1, reason, hr⟩
  · obtain ⟨rfl, haccept⟩ := run_processSig_eq_ok hsig
    change (setAccount addr acc >>= fun _ => pure acc).run env meter' middle = (r, s') at hrest
    rcases run_setAccount_cases hrest with ⟨hs, value, hr⟩ | ⟨meter'', hrest⟩
    · exact .inl ⟨hs, _, hr⟩
    · cases hrest
      exact .inr ⟨acc, meter'', rfl, haccept, rfl⟩

/-- The first signer's account is accepted and can pay the fee. -/
def PaysFirst (env : Env Msg) (chainID : String) (tx : StdTx Msg) (addr : Address)
    (sig : StdSignature) (s : AnteState) (acc' : Account) : Prop :=
  ∃ acc, acceptSig env chainID tx addr sig (s.accounts.getAccount addr) = .ok acc ∧
    chargeFee tx.fee acc = .ok acc'

/-- The first round stops without a trace, and if it aborts then the first signer is not accepted or
cannot pay; or it runs out of gas when the fee is collected and the account not yet saved; or it does
both. -/
theorem run_round_first_cases {r : Except Stop (Account × GasMeter)}
    (h : (round env chainID tx true addr sig).run env meter s = (r, s')) :
    (s' = s ∧ ∃ reason, r = .error reason ∧
      ∀ err, reason = .abort err → ∀ acc', ¬ PaysFirst env chainID tx addr sig s acc') ∨
    (∃ acc' value, PaysFirst env chainID tx addr sig s acc' ∧ r = .error (.panic value) ∧
      s'.accounts = s.accounts ∧ Collected tx.fee s.collectedFees s'.collectedFees) ∨
    ∃ acc' meter', PaysFirst env chainID tx addr sig s acc' ∧ r = .ok (acc', meter') ∧
      s'.accounts = s.accounts.setAccount addr acc' ∧
      Collected tx.fee s.collectedFees s'.collectedFees := by
  rw [round] at h
  rcases run_bind_cases h with ⟨reason, hsig, hr⟩ | ⟨acc, meter', middle, hsig, hrest⟩
  · obtain ⟨hs, hcases⟩ := run_processSig_cases hsig
    refine .inl ⟨hs, reason, hr, ?_⟩
    rintro err rfl acc' ⟨acc, haccept, -⟩
    rcases hcases with ⟨_, heq⟩ | ⟨_, _, hreject⟩ | ⟨_, _, heq, _⟩
    · cases heq
    · rw [haccept] at hreject
      cases hreject
    · cases heq
  · obtain ⟨rfl, haccept⟩ := run_processSig_eq_ok hsig
    rcases run_bind_cases hrest with ⟨reason, hpay, hr⟩ | ⟨acc', meter'', paid, hpay, hrest⟩
    · rcases run_payFee_cases hpay with ⟨hs, value, heq⟩ | ⟨hs, _, heq, hcharge⟩ | ⟨_, _, heq, _⟩
      · cases heq
        exact .inl ⟨hs, _, hr, by simp⟩
      · cases heq
        refine .inl ⟨hs, reason, hr, ?_⟩
        rintro err - acc' ⟨other, hother, hpaid⟩
        rw [haccept] at hother
        cases hother
        rw [hcharge] at hpaid
        cases hpaid
      · cases heq
    · rcases run_payFee_cases hpay with ⟨_, value, heq⟩ | ⟨_, _, heq, _⟩ |
        ⟨_, _, heq, hcharge, hcollected, haccounts⟩
      · cases heq
      · cases heq
      · cases heq
        have hpays : PaysFirst env chainID tx addr sig middle acc' := ⟨acc, haccept, hcharge⟩
        rcases run_setAccount_cases hrest with ⟨rfl, value, hr⟩ | ⟨last, hrest⟩
        · exact .inr (.inl ⟨acc', value, hpays, hr, haccounts, hcollected⟩)
        · cases hrest
          exact .inr (.inr ⟨acc', last, hpays, rfl, by rw [haccounts], hcollected⟩)

/-! ## All rounds -/

/-- Accounts are saved one after the other, each accepted as it then is. -/
inductive Saves (env : Env Msg) (chainID : String) (tx : StdTx Msg) :
    List (Address × StdSignature) → AnteState → AnteState → Prop
  | nil (s : AnteState) : Saves env chainID tx [] s s
  | cons {addr : Address} {sig : StdSignature} {rest : List (Address × StdSignature)}
      {s s' : AnteState} {acc : Account} :
      acceptSig env chainID tx addr sig (s.accounts.getAccount addr) = .ok acc →
      Saves env chainID tx rest { s with accounts := s.accounts.setAccount addr acc } s' →
      Saves env chainID tx ((addr, sig) :: rest) s s'

/-- The later rounds save the accounts of the next signers, of all of them if the run passes. -/
theorem run_rounds_cases {entries : List (Address × StdSignature)}
    {r : Except Stop (List Account × GasMeter)}
    (h : (rounds env chainID tx false entries).run env meter s = (r, s')) :
    ∃ saved rest, entries = saved ++ rest ∧ Saves env chainID tx saved s s' ∧
      ((∃ reason, r = .error reason) ∨ ∃ value, r = .ok value ∧ rest = []) := by
  induction entries generalizing meter s r s' with
  | nil =>
    cases h
    exact ⟨[], [], rfl, .nil s, .inr ⟨_, rfl, rfl⟩⟩
  | cons entry entries ih =>
    obtain ⟨addr, sig⟩ := entry
    rw [rounds] at h
    rcases run_bind_cases h with ⟨reason, hround, hr⟩ | ⟨acc, meter', middle, hround, hrest⟩
    · rcases run_round_cases hround with ⟨rfl, _⟩ | ⟨_, _, heq, _⟩
      · exact ⟨[], _, rfl, .nil _, .inl ⟨reason, hr⟩⟩
      · cases heq
    · rcases run_round_cases hround with ⟨_, _, heq⟩ | ⟨_, _, heq, haccept, rfl⟩
      · cases heq
      · cases heq
        rcases run_bind_cases hrest with ⟨reason, hrounds, hr⟩ | ⟨accs, meter'', _, hrounds, hend⟩
        · obtain ⟨saved, rest, rfl, hsaves, _⟩ := ih hrounds
          exact ⟨(addr, sig) :: saved, rest, rfl, .cons haccept hsaves, .inl ⟨reason, hr⟩⟩
        · cases hend
          obtain ⟨saved, rest, rfl, hsaves, hcases⟩ := ih hrounds
          refine ⟨(addr, sig) :: saved, rest, rfl, .cons haccept hsaves, .inr ⟨_, rfl, ?_⟩⟩
          rcases hcases with ⟨_, heq⟩ | ⟨_, _, hnil⟩
          · cases heq
          · exact hnil

/-- The ways in which a call of the ante handler ends. -/
inductive AnteEnd (env : Env Msg) (chainID : String) (tx : StdTx Msg) (s : AnteState) :
    Except Stop (List Account × GasMeter) → AnteState → Prop
  /-- It stops before anything is written.  If it aborts, the first signer has not been accepted. -/
  | early {reason : Stop} :
      (∀ err, reason = .abort err → tx.WellFormed env → acceptsFirst env chainID tx s = false) →
      AnteEnd env chainID tx s (.error reason) s
  /-- It runs out of gas between the collected fees and the first account. -/
  | unsaved {value : GoPanic} {s' : AnteState} :
      s'.accounts = s.accounts → Collected tx.fee s.collectedFees s'.collectedFees →
      AnteEnd env chainID tx s (.error (.panic value)) s'
  /-- The first account is saved, and then those of the next signers. -/
  | saved {addr : Address} {sig : StdSignature} {saved rest : List (Address × StdSignature)}
      {acc : Account} {middle s' : AnteState} {r : Except Stop (List Account × GasMeter)} :
      tx.WellFormed env → tx.entries env = (addr, sig) :: saved ++ rest →
      PaysFirst env chainID tx addr sig s acc →
      middle.accounts = s.accounts.setAccount addr acc →
      Collected tx.fee s.collectedFees middle.collectedFees →
      Saves env chainID tx saved middle s' →
      (∃ reason, r = .error reason) ∨ (∃ value, r = .ok value ∧ rest = []) →
      AnteEnd env chainID tx s r s'

theorem acceptsFirst_iff {rest : List (Address × StdSignature)}
    (hentries : tx.entries env = (addr, sig) :: rest) :
    acceptsFirst env chainID tx s = true ↔ ∃ acc, PaysFirst env chainID tx addr sig s acc := by
  rw [acceptsFirst, hentries]
  simp only [PaysFirst]
  cases haccept : acceptSig env chainID tx addr sig (s.accounts.getAccount addr) with
  | error err => simp
  | ok acc =>
    simp only [Except.ok.injEq, exists_eq_left']
    cases chargeFee tx.fee acc with
    | error reason => simp [Except.toBool]
    | ok acc' => simp [Except.toBool]

theorem anteHandler_end {r : Except Stop (List Account × GasMeter)}
    (h : runAnteHandler env chainID tx s = (r, s')) : AnteEnd env chainID tx s r s' := by
  rw [runAnteHandler, anteHandler] at h
  split_ifs at h with hsigs hmemo
  · cases h
    exact .early fun _ _ hwf => absurd hsigs hwf.1
  · cases h
    exact .early fun _ _ hwf => absurd hmemo (not_lt.mpr hwf.2.1)
  · rcases run_consumeGas_cases h with ⟨rfl, value, rfl⟩ | ⟨meter, h⟩
    · exact .early (by simp)
    · dsimp only at h
      split_ifs at h with hlength
      · cases h
        exact .early fun _ _ hwf => absurd hwf.2.2 hlength
      · have hwf : tx.WellFormed env := ⟨hsigs, not_lt.mp hmemo, not_not.mp hlength⟩
        change (rounds env chainID tx true (tx.entries env)).run env meter s = (r, s') at h
        cases hentries : tx.entries env with
        | nil =>
          rw [StdTx.entries, List.zip_eq_nil_iff] at hentries
          have hzero : tx.signatures.length = 0 := by
            rcases hentries with hnil | hnil
            · rw [hwf.2.2, hnil, List.length_nil]
            · rw [hnil, List.length_nil]
          exact absurd (List.length_eq_zero_iff.mp hzero) hsigs
        | cons entry rest =>
          obtain ⟨addr, sig⟩ := entry
          rw [hentries, rounds] at h
          rcases run_bind_cases h with ⟨reason, hround, rfl⟩ | ⟨acc, meter', middle, hround, hrest⟩
          · rcases run_round_first_cases hround with ⟨rfl, _, heq, hnot⟩ |
              ⟨_, value, _, heq, haccounts, hcollected⟩ | ⟨_, _, _, heq, _⟩
            · cases heq
              refine .early fun err herr _ => ?_
              rw [← Bool.not_eq_true, acceptsFirst_iff hentries]
              rintro ⟨acc', hpays⟩
              exact hnot err herr acc' hpays
            · cases heq
              exact .unsaved haccounts hcollected
            · cases heq
          · rcases run_round_first_cases hround with ⟨_, _, heq, _⟩ | ⟨_, _, _, heq, _⟩ |
              ⟨_, _, hpays, heq, haccounts, hcollected⟩
            · cases heq
            · cases heq
            · cases heq
              rcases run_bind_cases hrest with ⟨reason, hrounds, rfl⟩ |
                ⟨accs, meter'', _, hrounds, hend⟩
              · obtain ⟨saved, later, rfl, hsaves, _⟩ := run_rounds_cases hrounds
                exact .saved hwf hentries hpays haccounts hcollected hsaves (.inl ⟨_, rfl⟩)
              · cases hend
                obtain ⟨saved, later, rfl, hsaves, hcases⟩ := run_rounds_cases hrounds
                refine .saved hwf hentries hpays haccounts hcollected hsaves (.inr ⟨_, rfl, ?_⟩)
                rcases hcases with ⟨_, heq⟩ | ⟨_, _, hnil⟩
                · cases heq
                · exact hnil

/-! ## What has been saved -/

namespace Saves

variable {entries : List (Address × StdSignature)}

theorem collectedFees (h : Saves env chainID tx entries s s') :
    s'.collectedFees = s.collectedFees := by
  induction h with
  | nil s => rfl
  | cons _ _ ih => exact ih

theorem untouched (h : Saves env chainID tx entries s s') {other : Address}
    (hother : other ∉ entries.map Prod.fst) :
    s'.accounts.getAccount other = s.accounts.getAccount other := by
  induction h with
  | nil s => rfl
  | cons _ _ ih =>
    rw [List.map_cons, List.mem_cons, not_or] at hother
    rw [ih hother.2]
    exact AccountStore.getAccount_setAccount_of_ne _ _ (Ne.symm hother.1)

theorem accepted (h : Saves env chainID tx entries s s') (hnodup : (entries.map Prod.fst).Nodup)
    (hmem : (addr, sig) ∈ entries) :
    ∃ acc, acceptSig env chainID tx addr sig (s.accounts.getAccount addr) = .ok acc ∧
      s'.accounts.getAccount addr = some acc := by
  induction h with
  | nil s => cases hmem
  | @cons addr' sig' rest s s' acc haccept hsaves ih =>
    rw [List.map_cons, List.nodup_cons] at hnodup
    rcases List.mem_cons.mp hmem with heq | hmem
    · cases heq
      refine ⟨acc, haccept, ?_⟩
      rw [hsaves.untouched hnodup.1]
      exact AccountStore.getAccount_setAccount_self _ _ _
    · have hne : addr' ≠ addr := by
        intro heq
        exact hnodup.1 (List.mem_map.mpr ⟨_, hmem, heq.symm⟩)
      have hsame := AccountStore.getAccount_setAccount_of_ne s.accounts acc hne
      obtain ⟨acc', haccept', hsaved⟩ := ih hnodup.2 hmem
      rw [hsame] at haccept'
      exact ⟨acc', haccept', hsaved⟩

end Saves

theorem entries_fst (hwf : tx.WellFormed env) : (tx.entries env).map Prod.fst = tx.getSigners env :=
  List.map_fst_zip hwf.2.2.ge

theorem nodup_entries (hwf : tx.WellFormed env) : ((tx.entries env).map Prod.fst).Nodup := by
  rw [entries_fst hwf]
  exact nodup_getSigners env tx

theorem coinsOr_eq_ok {result : Outcome Coins} {coins : Coins} (h : coinsOr result = .ok coins) :
    result = .ok coins := by
  cases result with
  | error _ => cases h
  | ok coins' =>
    cases h
    rfl

theorem chargeFee_eq_ok {fee : StdFee} {acc acc' : Account} (h : chargeFee fee acc = .ok acc') :
    ∃ coins, acc' = { acc with coins } ∧ Charged fee acc.coins coins := by
  rw [chargeFee] at h
  unfold Charged
  split_ifs at h ⊢ with hzero
  · cases h
    exact ⟨acc.coins, rfl, rfl⟩
  · rw [deductFees, bind_eq_ok] at h
    obtain ⟨newCoins, hminus, h⟩ := h
    split_ifs at h with hnonneg
    cases h
    exact ⟨newCoins, rfl, coinsOr_eq_ok hminus, hnonneg⟩

theorem PaysFirst.signed {acc' : Account} (h : PaysFirst env chainID tx addr sig s acc') :
    ∃ old acc coins pubKey, s.accounts.getAccount addr = some old ∧
      Signed env chainID tx addr sig old acc pubKey ∧ acc' = { acc with coins } := by
  obtain ⟨acc, haccept, hcharge⟩ := h
  obtain ⟨old, pubKey, hold, hsigned⟩ := acceptSig_eq_ok haccept
  obtain ⟨coins, hcoins, -⟩ := chargeFee_eq_ok hcharge
  exact ⟨old, acc, coins, pubKey, hold, hsigned, hcoins⟩

/-- An account that is saved has signed, and its sequence number is raised. -/
def SavedFor (env : Env Msg) (chainID : String) (tx : StdTx Msg) (s s' : AnteState) (addr : Address)
    (sig : StdSignature) : Prop :=
  ∃ old acc coins pubKey, s.accounts.getAccount addr = some old ∧
    Signed env chainID tx addr sig old acc pubKey ∧
    s'.accounts.getAccount addr = some { acc with coins }

/-- After the first account and those of the next signers have been saved: each of them is saved once
and no other account has changed. -/
theorem saved_spec {saved rest : List (Address × StdSignature)} {acc : Account} {middle : AnteState}
    (hwf : tx.WellFormed env) (hentries : tx.entries env = (addr, sig) :: saved ++ rest)
    (hpays : PaysFirst env chainID tx addr sig s acc)
    (haccounts : middle.accounts = s.accounts.setAccount addr acc)
    (hsaves : Saves env chainID tx saved middle s') :
    (∀ entry ∈ (addr, sig) :: saved, SavedFor env chainID tx s s' entry.1 entry.2) ∧
      ∀ other, other ∉ ((addr, sig) :: saved).map Prod.fst →
        s'.accounts.getAccount other = s.accounts.getAccount other := by
  have hnodup := nodup_entries hwf
  rw [hentries, List.map_append, List.nodup_append] at hnodup
  obtain ⟨hfirst, hsavedNodup⟩ := List.nodup_cons.mp hnodup.1
  have hmiddle : ∀ other, addr ≠ other →
      middle.accounts.getAccount other = s.accounts.getAccount other := by
    intro other hne
    rw [haccounts]
    exact AccountStore.getAccount_setAccount_of_ne _ _ hne
  constructor
  · rw [List.forall_mem_cons]
    constructor
    · obtain ⟨old, acc', coins, pubKey, hold, hsigned, rfl⟩ := hpays.signed
      refine ⟨old, acc', coins, pubKey, hold, hsigned, ?_⟩
      rw [hsaves.untouched hfirst, haccounts]
      exact AccountStore.getAccount_setAccount_self _ _ _
    · rintro ⟨addr', sig'⟩ hmem
      have hne : addr ≠ addr' := by
        intro heq
        exact hfirst (List.mem_map.mpr ⟨_, hmem, heq.symm⟩)
      obtain ⟨acc', haccept, hsaved⟩ := hsaves.accepted hsavedNodup hmem
      rw [hmiddle addr' hne] at haccept
      obtain ⟨old, pubKey, hold, hsigned⟩ := acceptSig_eq_ok haccept
      exact ⟨old, acc', acc'.coins, pubKey, hold, hsigned, hsaved⟩
  · intro other hother
    rw [List.map_cons, List.mem_cons, not_or] at hother
    rw [hsaves.untouched hother.2, hmiddle other (Ne.symm hother.1)]

/-! ## Ends of concrete calls -/

/-- The call passed and the state left passes a test. -/
def passesWith (test : AnteState → Bool) : Except Stop (List Account × GasMeter) × AnteState → Bool
  | (.ok _, s') => test s'
  | _ => false

/-- The call was rejected and the state left passes a test. -/
def abortsWith (test : AnteState → Bool) : Except Stop (List Account × GasMeter) × AnteState → Bool
  | (.error (.abort _), s') => test s'
  | _ => false

theorem exists_of_passesWith {test : AnteState → Bool}
    {result : Except Stop (List Account × GasMeter) × AnteState}
    (h : passesWith test result = true) :
    ∃ value s', result = (.ok value, s') ∧ test s' = true := by
  obtain ⟨_ | value, s'⟩ := result
  · cases h
  · exact ⟨value, s', rfl, h⟩

theorem exists_of_abortsWith {test : AnteState → Bool}
    {result : Except Stop (List Account × GasMeter) × AnteState}
    (h : abortsWith test result = true) :
    ∃ err s', result = (.error (.abort err), s') ∧ test s' = true := by
  obtain ⟨(err | _) | value, s'⟩ := result
  · exact ⟨err, s', rfl, h⟩
  · cases h
  · cases h

/-- Two accounts with ten atoms each and no collected fees. -/
def twoFunded : AnteState := ⟨funded [([1], 10), ([2], 10)], none⟩

/-- Two messages, one to be signed by `[1]` and `[2]`, the other by `[2]`, for a fee of three atoms. -/
def twoMessages : StdTx (List Address) := ⟨[[[1], [2]], [[2]]], ⟨[⟨"atom", 3⟩], 10000⟩, [], []⟩

/-! ## Passing transactions -/

theorem passed_spec {value : List Account × GasMeter}
    (h : runAnteHandler env chainID tx s = (.ok value, s')) :
    tx.WellFormed env ∧
      (∀ entry ∈ tx.entries env, SavedFor env chainID tx s s' entry.1 entry.2) ∧
      ∀ other, other ∉ tx.getSigners env →
        s'.accounts.getAccount other = s.accounts.getAccount other := by
  cases anteHandler_end h with
  | saved hwf hentries hpays haccounts _ hsaves hcases =>
    obtain ⟨_, heq⟩ | ⟨_, _, rfl⟩ := hcases
    · cases heq
    · have hspec := saved_spec hwf hentries hpays haccounts hsaves
      rw [List.append_nil] at hentries
      rw [← hentries, entries_fst hwf] at hspec
      exact ⟨hwf, hspec⟩

theorem exists_entry (hwf : tx.WellFormed env) (haddr : addr ∈ tx.getSigners env) :
    ∃ sig, (addr, sig) ∈ tx.entries env := by
  rw [← entries_fst hwf] at haddr
  obtain ⟨⟨addr', sig⟩, hmem, rfl⟩ := List.mem_map.mp haddr
  exact ⟨sig, hmem⟩

/-- Every address that a message names as a signer has signed the transaction: one of the signatures
verifies under a key that belongs to the account, over the chain id, the account's number and its
sequence number before the call, the fee, all messages and the memo.  And there is one signature for
each such address. -/
theorem passed_signed {value : List Account × GasMeter}
    (h : runAnteHandler env chainID tx s = (.ok value, s')) :
    (∀ msg ∈ tx.msgs, ∀ addr ∈ env.getSigners msg,
      ∃ acc sig pubKey, s.accounts.getAccount addr = some acc ∧ sig ∈ tx.signatures ∧
        (acc.pubKey = some pubKey ∨ acc.pubKey = none ∧ env.address pubKey = addr) ∧
        env.verifyBytes pubKey
          (stdSignBytes env chainID acc.accountNumber acc.sequence tx.fee tx.msgs tx.memo)
          sig.signature = true) ∧
    tx.signatures.length = (tx.msgs.flatMap env.getSigners).toFinset.card := by
  obtain ⟨hwf, hsaved, -⟩ := passed_spec h
  constructor
  · intro msg hmsg addr haddr
    obtain ⟨sig, hentry⟩ := exists_entry hwf ((mem_getSigners env).mpr ⟨msg, hmsg, haddr⟩)
    obtain ⟨old, acc, coins, pubKey, hold, hsigned, -⟩ := hsaved (addr, sig) hentry
    exact ⟨old, sig, pubKey, hold, (List.of_mem_zip hentry).2, hsigned.bound, hsigned.verifies⟩
  · rw [hwf.2.2, length_getSigners]

theorem passed_signed_twoMessages :
    let tx := twoMessages.signedBy "chain" [([1], 0, 0), ([2], 1, 0)]
    (∃ value s', runAnteHandler plainEnv "chain" tx twoFunded = (.ok value, s')) ∧
      ∀ msg ∈ tx.msgs, ∀ addr ∈ plainEnv.getSigners msg,
        ∃ acc sig pubKey, twoFunded.accounts.getAccount addr = some acc ∧ sig ∈ tx.signatures ∧
          (acc.pubKey = some pubKey ∨ acc.pubKey = none ∧ plainEnv.address pubKey = addr) ∧
          plainEnv.verifyBytes pubKey
            (stdSignBytes plainEnv "chain" acc.accountNumber acc.sequence tx.fee tx.msgs tx.memo)
            sig.signature = true := by
  intro tx
  have hpasses : passesWith (fun _ => true) (runAnteHandler plainEnv "chain" tx twoFunded) = true := by
    decide +kernel
  obtain ⟨value, s', h, -⟩ := exists_of_passesWith hpasses
  exact ⟨⟨value, s', h⟩, (passed_signed h).1⟩

/-! ## Rejected transactions -/

theorem int64_succ_ne (n : ℤ) : int64 (n + 1) ≠ n := by
  obtain ⟨k, hk⟩ := exists_int64_eq (n + 1)
  omega

/-- The accounts and the collected fees are the same. -/
def Unchanged (s s' : AnteState) : Prop :=
  (∀ addr, s'.accounts.getAccount addr = s.accounts.getAccount addr) ∧
    s'.collectedFees = s.collectedFees

theorem SavedFor.changed (h : SavedFor env chainID tx s s' addr sig) : ¬ Unchanged s s' := by
  obtain ⟨old, acc, coins, pubKey, hold, hsigned, hnew⟩ := h
  rintro ⟨hsame, -⟩
  rw [hsame addr, hold, hsigned.saved] at hnew
  exact int64_succ_ne old.sequence (congrArg Account.sequence (Option.some.inj hnew)).symm

/-- A rejected transaction has no effect exactly when it was rejected before its first signer was
accepted: by the checks before the loop, by the first signature or because the first signer cannot
pay. -/
theorem aborted_unchanged_iff {err : SdkError}
    (h : runAnteHandler env chainID tx s = (.error (.abort err), s')) :
    Unchanged s s' ↔ ¬ (tx.WellFormed env ∧ acceptsFirst env chainID tx s = true) := by
  cases anteHandler_end h with
  | early hfirst =>
    refine iff_of_true ⟨fun _ => rfl, rfl⟩ ?_
    rintro ⟨hwf, haccepts⟩
    rw [hfirst err rfl hwf] at haccepts
    cases haccepts
  | saved hwf hentries hpays haccounts _ hsaves _ =>
    have hspec := saved_spec hwf hentries hpays haccounts hsaves
    have haccepts := (acceptsFirst_iff hentries).mpr ⟨_, hpays⟩
    exact iff_of_false (hspec.1 _ List.mem_cons_self).changed (not_not.mpr ⟨hwf, haccepts⟩)

/-- The first of two signers has a wrong sequence number. -/
theorem aborted_unchanged_iff_first :
    let tx := twoMessages.signedBy "chain" [([1], 0, 4), ([2], 1, 0)]
    ∃ err s', runAnteHandler plainEnv "chain" tx twoFunded = (.error (.abort err), s') ∧
      Unchanged twoFunded s' := by
  intro tx
  have haborts : abortsWith (fun _ => true) (runAnteHandler plainEnv "chain" tx twoFunded) = true := by
    decide +kernel
  obtain ⟨err, s', h, -⟩ := exists_of_abortsWith haborts
  exact ⟨err, s', h, (aborted_unchanged_iff h).mpr (by decide +kernel)⟩

/-- The second of two signers has a wrong sequence number: the fee has been paid. -/
theorem aborted_changed_second :
    let tx := twoMessages.signedBy "chain" [([1], 0, 0), ([2], 1, 4)]
    ∃ err s', runAnteHandler plainEnv "chain" tx twoFunded = (.error (.abort err), s') ∧
      s'.accounts.getAccount [1] = some ⟨[⟨"atom", 7⟩], some [1], 0, 1⟩ ∧
      s'.collectedFees = some [⟨"atom", 3⟩] ∧ ¬ Unchanged twoFunded s' := by
  intro tx
  have haborts : abortsWith
      (fun s' => decide (s'.accounts.getAccount [1] = some ⟨[⟨"atom", 7⟩], some [1], 0, 1⟩ ∧
        s'.collectedFees = some [⟨"atom", 3⟩] ∧ s'.collectedFees ≠ twoFunded.collectedFees))
      (runAnteHandler plainEnv "chain" tx twoFunded) = true := by decide +kernel
  obtain ⟨err, s', h, htest⟩ := exists_of_abortsWith haborts
  obtain ⟨haccount, hfees, hchanged⟩ := of_decide_eq_true htest
  exact ⟨err, s', h, haccount, hfees, fun hsame => hchanged hsame.2⟩

end Tepleton.Auth
