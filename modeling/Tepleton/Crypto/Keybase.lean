import Tepleton.Types.Fault

/-!
# The keybase: `crypto/keys/keybase.go`

A keybase stores one entry per name: a private key encrypted with a passphrase, a reference to a
Ledger key, or a public key.  Ten calls write to it.  Both imports refuse a name that is in use; the
calls that create keys do not look, and write over what is there.  `Delete` of a Ledger reference
returns without an error and deletes nothing, because a Go `case` without statements does nothing.

* `call_created`, `call_eq_ok`: what each call writes.
* `keys_kept_iff`: in every sequence of calls, no private key is lost, names in use are refused and
  deleted names are gone exactly if no call creates a key under a name in use and none deletes a Ledger
  reference.
-/

namespace Tepleton.Crypto.Keys

open Lib

/-! ## Entries -/

/-- `crypto.PrivKey`, identified with its encoding. -/
abbrev PrivKey := Bytes

/-- A text in ASCII armor. -/
abbrev Armor := Bytes

abbrev DerivationPath := List ℕ

/-- `Info`: `localInfo`, `ledgerInfo` or `offlineInfo`. -/
inductive Info
  | localInfo (name : String) (pubKey : PubKey) (privKeyArmor : Armor)
  | ledgerInfo (name : String) (pubKey : PubKey) (path : DerivationPath)
  | offlineInfo (name : String) (pubKey : PubKey)
  deriving DecidableEq, Repr

inductive Language
  | english | japanese | korean | spanish | chineseSimplified | chineseTraditional | french | italian
  deriving DecidableEq, Repr

/-- `SigningAlgo`, a string with two values that have names. -/
inductive SigningAlgo
  | secp256k1 | ed25519 | other (name : String)
  deriving DecidableEq, Repr

/-- What other packages do: the encoding of entries, the derivation of keys from mnemonics, signing, and
armor.  A passphrase opens an armor exactly if it is the one that the armor was made with. -/
structure Backend where
  writeInfo : Info → Bytes
  readInfo : Bytes → Except String Info
  readInfo_writeInfo (info : Info) : readInfo (writeInfo info) = .ok info
  readInfo_nil : ∃ err, readInfo [] = .error err
  newMnemonic : Bytes → Except String (List String)
  mnemonicToSeed : String → Bytes
  mnemonicToSeedWithErrChecking : String → Except String Bytes
  derivePrivateKeyForPath : Bytes → String → Except String PrivKey
  pubKey : PrivKey → PubKey
  sign : PrivKey → Bytes → Bytes
  encryptArmorPrivKey : Bytes → PrivKey → String → Armor
  unarmorDecryptPrivKey : Armor → String → Except String PrivKey
  encryptArmorPrivKey_ne_nil (salt : Bytes) (priv : PrivKey) (passphrase : String) :
    encryptArmorPrivKey salt priv passphrase ≠ []
  unarmorDecryptPrivKey_encrypt (salt : Bytes) (priv : PrivKey) (passphrase : String) :
    unarmorDecryptPrivKey (encryptArmorPrivKey salt priv passphrase) passphrase = .ok priv
  passphrase_eq {armor : Armor} {passphrase passphrase' : String} {priv priv' : PrivKey} :
    unarmorDecryptPrivKey armor passphrase = .ok priv →
      unarmorDecryptPrivKey armor passphrase' = .ok priv' → passphrase = passphrase'
  unarmorInfoBytes : Armor → Except String Bytes
  unarmorPubKeyBytes : Armor → Except String Bytes
  pubKeyFromBytes : Bytes → Except String PubKey

/-- The database of a keybase. -/
abbrev DB := KVStore String Bytes

def infoKey (name : String) : String := name ++ ".info"

def fullFundraiserPath : String := "44'/118'/0'/0/0"

/-- The number of words that `strings.Split` finds between spaces. -/
def wordCount (mnemonic : String) : ℕ := mnemonic.toList.count ' ' + 1

/-! ## Reading and writing -/

section Calls

variable (env : Backend) (db : DB)

/-- What `db.Get` returns for a name, nil as the empty string. -/
def rawInfo (name : String) : Bytes := (db[infoKey name]?).getD []

def get (name : String) : Except String Info := env.readInfo (rawInfo db name)

def writeInfo (info : Info) (name : String) : DB := db.insert (infoKey name) (env.writeInfo info)

/-- `dbKeybase.writeLocalKey`, with the salt that is drawn for the encryption. -/
def writeLocalKey (salt : Bytes) (priv : PrivKey) (name passphrase : String) : DB × Info :=
  let privArmor := env.encryptArmorPrivKey salt priv passphrase
  let info := Info.localInfo name (env.pubKey priv) privArmor
  (writeInfo env db info name, info)

def writeLedgerKey (pub : PubKey) (path : DerivationPath) (name : String) : DB × Info :=
  let info := Info.ledgerInfo name pub path
  (writeInfo env db info name, info)

def writeOfflineKey (pub : PubKey) (name : String) : DB × Info :=
  let info := Info.offlineInfo name pub
  (writeInfo env db info name, info)

/-- `dbKeybase.Sign`.  A Ledger signs by itself and for an offline key somebody types the signature in:
`answer` is what comes from there. -/
def sign (name passphrase : String) (msg : Bytes) (answer : Except String Bytes) :
    Except String (Bytes × PubKey) := do
  match ← get env db name with
  | .localInfo _ _ privKeyArmor =>
    if privKeyArmor = [] then throw "private key not available"
    else
      let priv ← env.unarmorDecryptPrivKey privKeyArmor passphrase
      return (env.sign priv msg, env.pubKey priv)
  | .ledgerInfo _ pubKey _ => return (← answer, pubKey)
  | .offlineInfo _ pubKey => return (← answer, pubKey)

/-! ## Creating keys -/

/-- `dbKeybase.persistDerivedKey`.  Without a password only the public key is stored. -/
def persistDerivedKey (salt seed : Bytes) (passwd name fullHdPath : String) :
    Except String (DB × Info) := do
  let derivedPriv ← env.derivePrivateKeyForPath seed fullHdPath
  if passwd ≠ "" then return writeLocalKey env db salt derivedPriv name passwd
  else return writeOfflineKey env db (env.pubKey derivedPriv) name

/-- `dbKeybase.CreateMnemonic`, with the entropy drawn for the mnemonic. -/
def createMnemonic (entropy salt : Bytes) (name : String) (language : Language) (passwd : String)
    (algo : SigningAlgo) : Except String (DB × Info × String) :=
  if language ≠ .english then throw "unsupported language: only english is supported"
  else if algo ≠ .secp256k1 then throw "unsupported signing algo: only secp256k1 is supported"
  else do
    let mnemonicS ← env.newMnemonic entropy
    let mnemonic := " ".intercalate mnemonicS
    let seed := env.mnemonicToSeed mnemonic
    let (db, info) ← persistDerivedKey env db salt seed passwd name fullFundraiserPath
    return (db, info, mnemonic)

def createKey (salt : Bytes) (name mnemonic passwd : String) : Except String (DB × Info) :=
  if wordCount mnemonic ≠ 12 ∧ wordCount mnemonic ≠ 24 then
    throw ("recovering only works with 12 word (fundraiser) or 24 word mnemonics, got: " ++
      toString (wordCount mnemonic) ++ " words")
  else do
    let seed ← env.mnemonicToSeedWithErrChecking mnemonic
    persistDerivedKey env db salt seed passwd name fullFundraiserPath

def createFundraiserKey (salt : Bytes) (name mnemonic passwd : String) :
    Except String (DB × Info) :=
  if wordCount mnemonic ≠ 12 then
    throw ("recovering only works with 12 word (fundraiser), got: " ++
      toString (wordCount mnemonic) ++ " words")
  else do
    let seed ← env.mnemonicToSeedWithErrChecking mnemonic
    persistDerivedKey env db salt seed passwd name fullFundraiserPath

/-- `dbKeybase.Derive`, with the path that the parameters stand for. -/
def derive (salt : Bytes) (name mnemonic passwd path : String) : Except String (DB × Info) := do
  let seed ← env.mnemonicToSeedWithErrChecking mnemonic
  persistDerivedKey env db salt seed passwd name path

/-- `dbKeybase.CreateLedger`, with what the device answers. -/
def createLedger (device : Except String PubKey) (name : String) (path : DerivationPath)
    (algo : SigningAlgo) : Except String (DB × Info) :=
  if algo ≠ .secp256k1 then throw "unsupported signing algo: only secp256k1 is supported"
  else do
    let pub ← device
    return writeLedgerKey env db pub path name

def createOffline (name : String) (pub : PubKey) : Except String (DB × Info) :=
  return writeOfflineKey env db pub name

/-! ## Importing, deleting and updating -/

/-- `dbKeybase.Import`.  What is stored need not be an entry. -/
def importInfo (name : String) (armor : Armor) : Except String DB :=
  if 0 < (rawInfo db name).length then throw ("Cannot overwrite data for name " ++ name)
  else do
    let infoBytes ← env.unarmorInfoBytes armor
    return db.insert (infoKey name) infoBytes

def importPubKey (name : String) (armor : Armor) : Except String DB :=
  if 0 < (rawInfo db name).length then throw ("Cannot overwrite data for name " ++ name)
  else do
    let pubBytes ← env.unarmorPubKeyBytes armor
    let pubKey ← env.pubKeyFromBytes pubBytes
    return (writeOfflineKey env db pubKey name).1

/-- `dbKeybase.Delete`.  The case for Ledger references is empty, and so nothing is deleted. -/
def delete (name passphrase : String) : Except String DB := do
  match ← get env db name with
  | .localInfo _ _ privKeyArmor =>
    let _ ← env.unarmorDecryptPrivKey privKeyArmor passphrase
    return db.erase (infoKey name)
  | .ledgerInfo _ _ _ => return db
  | .offlineInfo _ _ =>
    if passphrase ≠ "yes" then
      throw "enter 'yes' exactly to delete the key - this cannot be undone"
    else return db.erase (infoKey name)

def update (salt : Bytes) (name oldpass newpass : String) : Except String DB := do
  match ← get env db name with
  | .localInfo _ _ privKeyArmor =>
    let key ← env.unarmorDecryptPrivKey privKeyArmor oldpass
    return (writeLocalKey env db salt key name newpass).1
  | .ledgerInfo _ _ _ => throw "locally stored key required"
  | .offlineInfo _ _ => throw "locally stored key required"

end Calls

/-! ## Sequences of calls -/

/-- A call that may write, with what is drawn at random or comes from a device in it. -/
inductive Call
  | createMnemonic (entropy salt : Bytes) (name : String) (language : Language) (passwd : String)
      (algo : SigningAlgo)
  | createKey (salt : Bytes) (name mnemonic passwd : String)
  | createFundraiserKey (salt : Bytes) (name mnemonic passwd : String)
  | derive (salt : Bytes) (name mnemonic passwd path : String)
  | createLedger (device : Except String PubKey) (name : String) (path : DerivationPath)
      (algo : SigningAlgo)
  | createOffline (name : String) (pub : PubKey)
  | importInfo (name : String) (armor : Armor)
  | importPubKey (name : String) (armor : Armor)
  | update (salt : Bytes) (name oldpass newpass : String)
  | delete (name passphrase : String)

/-- The name a call is about. -/
def Call.name : Call → String
  | .createMnemonic _ _ name _ _ _ => name
  | .createKey _ name _ _ => name
  | .createFundraiserKey _ name _ _ => name
  | .derive _ name _ _ _ => name
  | .createLedger _ name _ _ => name
  | .createOffline name _ => name
  | .importInfo name _ => name
  | .importPubKey name _ => name
  | .update _ name _ _ => name
  | .delete name _ => name

/-- The database after a call that succeeds.  A call that fails has written nothing. -/
def call (env : Backend) (db : DB) : Call → Except String DB
  | .createMnemonic entropy salt name language passwd algo => do
      return (← createMnemonic env db entropy salt name language passwd algo).1
  | .createKey salt name mnemonic passwd => do
      return (← createKey env db salt name mnemonic passwd).1
  | .createFundraiserKey salt name mnemonic passwd => do
      return (← createFundraiserKey env db salt name mnemonic passwd).1
  | .derive salt name mnemonic passwd path => do
      return (← derive env db salt name mnemonic passwd path).1
  | .createLedger device name path algo => do
      return (← createLedger env db device name path algo).1
  | .createOffline name pub => do return (← createOffline env db name pub).1
  | .importInfo name armor => importInfo env db name armor
  | .importPubKey name armor => importPubKey env db name armor
  | .update salt name oldpass newpass => update env db salt name oldpass newpass
  | .delete name passphrase => delete env db name passphrase

/-- The database after a call: one that fails leaves it as it is. -/
def after (env : Backend) (db : DB) (c : Call) : DB :=
  match call env db c with
  | .ok db' => db'
  | .error _ => db

/-- One call of a sequence. -/
def step (env : Backend) (db : DB) (c : Call) : Except Empty DB := .ok (after env db c)

/-! ## What calls write -/

variable {env : Backend} {db db' : DB} {name passphrase : String} {priv : PrivKey} {c : Call}

/-- The entry that `persistDerivedKey` makes. -/
def derivedInfo (env : Backend) (salt seed : Bytes) (passwd name fullHdPath : String) :
    Except String Info := do
  let derivedPriv ← env.derivePrivateKeyForPath seed fullHdPath
  if passwd ≠ "" then
    return .localInfo name (env.pubKey derivedPriv) (env.encryptArmorPrivKey salt derivedPriv passwd)
  else return .offlineInfo name (env.pubKey derivedPriv)

/-- The entry that a call makes if it creates a key.  It does not depend on the database. -/
def Call.created (env : Backend) : Call → Option (Except String Info)
  | .createMnemonic entropy salt name language passwd algo => some <|
      if language ≠ .english then throw "unsupported language: only english is supported"
      else if algo ≠ .secp256k1 then throw "unsupported signing algo: only secp256k1 is supported"
      else do
        let mnemonicS ← env.newMnemonic entropy
        derivedInfo env salt (env.mnemonicToSeed (" ".intercalate mnemonicS)) passwd name
          fullFundraiserPath
  | .createKey salt name mnemonic passwd => some <|
      if wordCount mnemonic ≠ 12 ∧ wordCount mnemonic ≠ 24 then
        throw ("recovering only works with 12 word (fundraiser) or 24 word mnemonics, got: " ++
          toString (wordCount mnemonic) ++ " words")
      else do
        let seed ← env.mnemonicToSeedWithErrChecking mnemonic
        derivedInfo env salt seed passwd name fullFundraiserPath
  | .createFundraiserKey salt name mnemonic passwd => some <|
      if wordCount mnemonic ≠ 12 then
        throw ("recovering only works with 12 word (fundraiser), got: " ++
          toString (wordCount mnemonic) ++ " words")
      else do
        let seed ← env.mnemonicToSeedWithErrChecking mnemonic
        derivedInfo env salt seed passwd name fullFundraiserPath
  | .derive salt name mnemonic passwd path => some <| do
      let seed ← env.mnemonicToSeedWithErrChecking mnemonic
      derivedInfo env salt seed passwd name path
  | .createLedger device name path algo => some <|
      if algo ≠ .secp256k1 then throw "unsupported signing algo: only secp256k1 is supported"
      else do return .ledgerInfo name (← device) path
  | .createOffline name pub => some (.ok (.offlineInfo name pub))
  | .importInfo _ _ | .importPubKey _ _ | .update _ _ _ _ | .delete _ _ => none

theorem persistDerivedKey_eq (salt seed : Bytes) (passwd name fullHdPath : String) :
    persistDerivedKey env db salt seed passwd name fullHdPath =
      (derivedInfo env salt seed passwd name fullHdPath).map fun info =>
        (writeInfo env db info name, info) := by
  rw [persistDerivedKey, derivedInfo]
  cases env.derivePrivateKeyForPath seed fullHdPath with
  | error err => rfl
  | ok derivedPriv =>
    by_cases hpasswd : passwd = ""
    · simp [hpasswd, writeOfflineKey, bind, Except.bind, pure, Except.pure, Except.map]
    · simp [hpasswd, writeLocalKey, bind, Except.bind, pure, Except.pure, Except.map]

theorem map_fst_map {x : Except String Info} {f : Info → DB} :
    (do return (← x.map fun info => (f info, info)).1 : Except String DB) = x.map f := by
  cases x <;> rfl

/-- A call that creates a key stores its entry under its name, whatever is there. -/
theorem call_created {made : Except String Info} (h : c.created env = some made) (db : DB) :
    call env db c = made.map fun info => writeInfo env db info c.name := by
  cases c with
  | createMnemonic entropy salt name language passwd algo =>
    obtain rfl := Option.some.inj h
    simp only [call, createMnemonic, persistDerivedKey_eq]
    split_ifs
    · rfl
    · rfl
    · cases env.newMnemonic entropy with
      | error err => rfl
      | ok mnemonicS =>
        cases hmade : derivedInfo env salt (env.mnemonicToSeed (" ".intercalate mnemonicS)) passwd
          name fullFundraiserPath <;>
          simp [hmade, bind, Except.bind, pure, Except.pure, Except.map, Call.name]
  | createKey salt name mnemonic passwd =>
    obtain rfl := Option.some.inj h
    simp only [call, createKey, persistDerivedKey_eq]
    split_ifs
    · rfl
    · cases env.mnemonicToSeedWithErrChecking mnemonic with
      | error err => rfl
      | ok seed => exact map_fst_map
  | createFundraiserKey salt name mnemonic passwd =>
    obtain rfl := Option.some.inj h
    simp only [call, createFundraiserKey, persistDerivedKey_eq]
    split_ifs
    · rfl
    · cases env.mnemonicToSeedWithErrChecking mnemonic with
      | error err => rfl
      | ok seed => exact map_fst_map
  | derive salt name mnemonic passwd path =>
    obtain rfl := Option.some.inj h
    simp only [call, derive, persistDerivedKey_eq]
    cases env.mnemonicToSeedWithErrChecking mnemonic with
    | error err => rfl
    | ok seed => exact map_fst_map
  | createLedger device name path algo =>
    obtain rfl := Option.some.inj h
    simp only [call, createLedger]
    split_ifs
    · rfl
    · cases device <;> rfl
  | createOffline name pub =>
    obtain rfl := Option.some.inj h
    rfl
  | importInfo name armor => cases h
  | importPubKey name armor => cases h
  | update salt name oldpass newpass => cases h
  | delete name passphrase => cases h

/-- The name is in use. -/
def InUse (db : DB) (name : String) : Prop := 0 < (rawInfo db name).length

instance (db : DB) (name : String) : Decidable (InUse db name) := inferInstanceAs (Decidable (_ < _))

theorem infoKey_injective : Function.Injective infoKey := by
  intro name name' h
  have hlist := congrArg String.toList h
  rw [infoKey, infoKey, String.toList_append, String.toList_append] at hlist
  exact String.toList_inj.mp (List.append_cancel_right hlist)

theorem rawInfo_insert (db : DB) (name name' : String) (bz : Bytes) :
    rawInfo (db.insert (infoKey name) bz) name' = if name = name' then bz else rawInfo db name' := by
  rw [rawInfo, KVStore.getElem?_insert]
  by_cases hname : name = name'
  · simp [hname]
  · have hkey : infoKey name ≠ infoKey name' := fun hsame => hname (infoKey_injective hsame)
    simp [hname, hkey, rawInfo]

theorem rawInfo_erase (db : DB) (name name' : String) :
    rawInfo (db.erase (infoKey name)) name' = if name = name' then [] else rawInfo db name' := by
  rw [rawInfo, KVStore.getElem?_erase]
  by_cases hname : name = name'
  · simp [hname]
  · have hkey : infoKey name ≠ infoKey name' := fun hsame => hname (infoKey_injective hsame)
    simp [hname, hkey, rawInfo]

/-- A call that succeeds has stored something under its name, deleted what was there, or done
nothing. -/
theorem call_eq_ok (h : call env db c = .ok db') :
    db' = db ∨ (∃ bz, db' = db.insert (infoKey c.name) bz) ∨ db' = db.erase (infoKey c.name) := by
  cases hmade : c.created env with
  | some made =>
    rw [call_created hmade] at h
    cases made with
    | error err => cases h
    | ok info =>
      cases h
      exact .inr (.inl ⟨_, rfl⟩)
  | none =>
    cases c with
    | createMnemonic | createKey | createFundraiserKey | derive | createLedger | createOffline =>
      cases hmade
    | importInfo name armor =>
      simp only [call, importInfo] at h
      split_ifs at h
      simp only [bind_eq_ok, pure_eq_ok] at h
      obtain ⟨infoBytes, -, rfl⟩ := h
      exact .inr (.inl ⟨_, rfl⟩)
    | importPubKey name armor =>
      simp only [call, importPubKey] at h
      split_ifs at h
      simp only [bind_eq_ok, pure_eq_ok] at h
      obtain ⟨pubBytes, -, pubKey, -, rfl⟩ := h
      exact .inr (.inl ⟨_, rfl⟩)
    | update salt name oldpass newpass =>
      simp only [call, update, bind_eq_ok] at h
      obtain ⟨info, -, h⟩ := h
      cases info with
      | localInfo name' pubKey armor =>
        simp only [bind_eq_ok, pure_eq_ok] at h
        obtain ⟨key, -, rfl⟩ := h
        exact .inr (.inl ⟨_, rfl⟩)
      | ledgerInfo name' pubKey path => cases h
      | offlineInfo name' pubKey => cases h
    | delete name passphrase =>
      simp only [call, delete, bind_eq_ok] at h
      obtain ⟨info, -, h⟩ := h
      cases info with
      | localInfo name' pubKey armor =>
        simp only [bind_eq_ok, pure_eq_ok] at h
        obtain ⟨key, -, rfl⟩ := h
        exact .inr (.inr rfl)
      | ledgerInfo name' pubKey path =>
        cases h
        exact .inl rfl
      | offlineInfo name' pubKey =>
        split_ifs at h
        cases h
        exact .inr (.inr rfl)

theorem rawInfo_after (h : name ≠ c.name) : rawInfo (after env db c) name = rawInfo db name := by
  rw [after]
  cases hcall : call env db c with
  | error err => rfl
  | ok db' =>
    rcases call_eq_ok hcall with rfl | ⟨bz, rfl⟩ | rfl
    · rfl
    · exact (rawInfo_insert db c.name name bz).trans (if_neg h.symm)
    · exact (rawInfo_erase db c.name name).trans (if_neg h.symm)

/-! ## Private keys -/

/-- A private key is stored under a name, and the passphrase opens it. -/
def Stored (env : Backend) (db : DB) (name : String) (priv : PrivKey) (passphrase : String) : Prop :=
  ∃ name' pubKey armor, get env db name = .ok (.localInfo name' pubKey armor) ∧ armor ≠ [] ∧
    env.unarmorDecryptPrivKey armor passphrase = .ok priv

/-- The private key can be used: `Sign` returns its signature. -/
def Signs (env : Backend) (db : DB) (name : String) (priv : PrivKey) (passphrase : String) : Prop :=
  ∀ msg answer, sign env db name passphrase msg answer = .ok (env.sign priv msg, env.pubKey priv)

theorem Stored.signs (h : Stored env db name priv passphrase) : Signs env db name priv passphrase := by
  intro msg answer
  obtain ⟨name', pubKey, armor, hget, harmor, hopens⟩ := h
  simp [sign, hget, harmor, hopens, bind, Except.bind, pure, Except.pure]

theorem Stored.inUse (h : Stored env db name priv passphrase) : InUse db name := by
  obtain ⟨name', pubKey, armor, hget, -, -⟩ := h
  rw [InUse, List.length_pos_iff]
  intro hnil
  obtain ⟨err, herr⟩ := env.readInfo_nil
  rw [get, hnil, herr] at hget
  cases hget

theorem Stored.of_rawInfo (h : Stored env db name priv passphrase)
    (hsame : rawInfo db' name = rawInfo db name) : Stored env db' name priv passphrase := by
  obtain ⟨name', pubKey, armor, hget, harmor, hopens⟩ := h
  refine ⟨name', pubKey, armor, ?_, harmor, hopens⟩
  rw [get, hsame]
  exact hget

theorem get_writeInfo (env : Backend) (db : DB) (info : Info) (name : String) :
    get env (writeInfo env db info name) name = .ok info := by
  rw [get, writeInfo, rawInfo_insert, if_pos rfl, env.readInfo_writeInfo]

/-- The passphrase after a call: `Update` changes it. -/
def Call.newPassphrase (name passphrase : String) : Call → String
  | .update _ name' oldpass newpass =>
    if name' = name ∧ oldpass = passphrase then newpass else passphrase
  | _ => passphrase

/-- The private key stays available under its name, with the passphrase it has at each time, until it
is deleted with that passphrase. -/
def KeptFrom (env : Backend) (name : String) (priv : PrivKey) :
    String → List (DB × Call) → Prop
  | _, [] => True
  | passphrase, (db, c) :: rest =>
    (c = .delete name passphrase ∧ ∃ db', call env db c = .ok db') ∨
      (Stored env (after env db c) name priv (c.newPassphrase name passphrase) ∧
        Signs env (after env db c) name priv (c.newPassphrase name passphrase) ∧
        KeptFrom env name priv (c.newPassphrase name passphrase) rest)

/-- The call makes an entry under a new name. -/
def Call.makes : Call → Bool
  | .update _ _ _ _ | .delete _ _ => false
  | .createMnemonic _ _ _ _ _ _ | .createKey _ _ _ _ | .createFundraiserKey _ _ _ _
  | .derive _ _ _ _ _ | .createLedger _ _ _ _ | .createOffline _ _ | .importInfo _ _
  | .importPubKey _ _ => true

/-- What a keybase promises about a sequence of calls. -/
structure KeysKept (env : Backend) (history : List (DB × Call)) : Prop where
  kept : ∀ earlier later, history = earlier ++ later → ∀ entry ∈ later.head?,
    ∀ name priv passphrase, Stored env entry.1 name priv passphrase →
      KeptFrom env name priv passphrase later
  refused : ∀ entry ∈ history, entry.2.makes = true → InUse entry.1 entry.2.name →
    ∃ err, call env entry.1 entry.2 = .error err
  gone : ∀ entry ∈ history, ∀ name passphrase db', entry.2 = .delete name passphrase →
    call env entry.1 entry.2 = .ok db' → ∃ err, get env db' name = .error err

/-- The entry is a reference to a Ledger. -/
def isLedger : Except String Info → Bool
  | .ok (.ledgerInfo _ _ _) => true
  | _ => false

/-- A call that does not create a key under a name in use, and does not delete a Ledger reference.  A
call to create a key that fails before it writes creates none. -/
def Careful (env : Backend) (db : DB) (c : Call) : Prop :=
  (InUse db c.name → ∀ made ∈ c.created env, made.isOk = false) ∧
    match c with
    | .delete name _ => isLedger (get env db name) = false
    | _ => True

instance (env : Backend) (db : DB) (c : Call) : Decidable (Careful env db c) :=
  match c with
  | .delete _ _ => inferInstanceAs (Decidable ((_ → ∀ made ∈ _, _) ∧ _ = _))
  | .createMnemonic _ _ _ _ _ _ | .createKey _ _ _ _ | .createFundraiserKey _ _ _ _
  | .derive _ _ _ _ _ | .createLedger _ _ _ _ | .createOffline _ _ | .importInfo _ _
  | .importPubKey _ _ | .update _ _ _ _ =>
    inferInstanceAs (Decidable ((_ → ∀ made ∈ _, _) ∧ True))

theorem after_of_error {err : String} (h : call env db c = .error err) : after env db c = db := by
  rw [after, h]

theorem after_of_ok (h : call env db c = .ok db') : after env db c = db' := by
  rw [after, h]

theorem call_refused (hcareful : Careful env db c) (hmakes : c.makes = true) (huse : InUse db c.name) :
    ∃ err, call env db c = .error err := by
  cases hmade : c.created env with
  | some made =>
    have hfails := hcareful.1 huse made hmade
    rw [call_created hmade]
    cases made with
    | error err => exact ⟨err, rfl⟩
    | ok info => cases hfails
  | none =>
    cases c with
    | createMnemonic | createKey | createFundraiserKey | derive | createLedger | createOffline =>
      cases hmade
    | importInfo name armor | importPubKey name armor => exact ⟨_, if_pos huse⟩
    | update | delete => cases hmakes

theorem Stored.update (h : Stored env db name priv passphrase) (salt : Bytes) (oldpass newpass : String) :
    Stored env (Keys.after env db (.update salt name oldpass newpass)) name priv
      (if oldpass = passphrase then newpass else passphrase) := by
  obtain ⟨name', pubKey, armor, hget, harmor, hopens⟩ := h
  by_cases hpass : oldpass = passphrase
  · subst hpass
    have hcall : call env db (.update salt name oldpass newpass) =
        .ok (writeLocalKey env db salt priv name newpass).1 := by
      simp [call, Keys.update, hget, hopens, bind, Except.bind, pure, Except.pure]
    rw [after_of_ok hcall, if_pos rfl]
    exact ⟨name, _, _, get_writeInfo env db _ name, env.encryptArmorPrivKey_ne_nil _ _ _,
      env.unarmorDecryptPrivKey_encrypt _ _ _⟩
  · -- the wrong passphrase does not open the armor
    have hcall : ∃ err, call env db (.update salt name oldpass newpass) = .error err := by
      cases hwrong : env.unarmorDecryptPrivKey armor oldpass with
      | error err => exact ⟨err, by simp [call, Keys.update, hget, hwrong, bind, Except.bind]⟩
      | ok priv' => exact absurd (env.passphrase_eq hwrong hopens) hpass
    obtain ⟨err, hcall⟩ := hcall
    rw [after_of_error hcall, if_neg hpass]
    exact ⟨name', pubKey, armor, hget, harmor, hopens⟩

theorem Stored.delete (h : Stored env db name priv passphrase) {passphrase' : String}
    (hne : passphrase' ≠ passphrase) : Keys.after env db (.delete name passphrase') = db := by
  obtain ⟨name', pubKey, armor, hget, -, hopens⟩ := h
  cases hwrong : env.unarmorDecryptPrivKey armor passphrase' with
  | error err =>
    have hcall : call env db (.delete name passphrase') = .error err := by
      simp [call, Keys.delete, hget, hwrong, bind, Except.bind]
    exact after_of_error hcall
  | ok priv' => exact absurd (env.passphrase_eq hwrong hopens) hne

/-- Careful calls do not take a private key away. -/
theorem Stored.after (h : Stored env db name priv passphrase) (hcareful : Careful env db c)
    (hdelete : c ≠ .delete name passphrase) :
    Stored env (Keys.after env db c) name priv (c.newPassphrase name passphrase) := by
  by_cases hname : name = c.name
  · subst hname
    by_cases hmakes : c.makes = true
    · obtain ⟨err, hcall⟩ := call_refused hcareful hmakes h.inUse
      have hpass : c.newPassphrase c.name passphrase = passphrase := by
        cases c <;> first | rfl | cases hmakes
      rw [after_of_error hcall, hpass]
      exact h
    · cases c with
      | createMnemonic | createKey | createFundraiserKey | derive | createLedger | createOffline
      | importInfo | importPubKey => exact absurd rfl hmakes
      | update salt name oldpass newpass =>
        have hstored : Stored env db name priv passphrase := h
        have hpass : (if name = name ∧ oldpass = passphrase then newpass else passphrase) =
            if oldpass = passphrase then newpass else passphrase := by simp
        rw [Call.newPassphrase, Call.name, hpass]
        exact hstored.update salt oldpass newpass
      | delete name passphrase' =>
        have hne : passphrase' ≠ passphrase := fun hsame => hdelete (by rw [hsame]; rfl)
        have hstored : Stored env db name priv passphrase := h
        rw [hstored.delete hne]
        exact h
  · have hpass : c.newPassphrase name passphrase = passphrase := by
      cases c with
      | update salt name' oldpass newpass => exact if_neg fun hboth => hname hboth.1.symm
      | createMnemonic | createKey | createFundraiserKey | derive | createLedger | createOffline
      | importInfo | importPubKey | delete => rfl
    rw [hpass]
    exact h.of_rawInfo (rawInfo_after hname)

theorem Stored.delete_ok (h : Stored env db name priv passphrase) :
    ∃ db', call env db (.delete name passphrase) = .ok db' := by
  obtain ⟨name', pubKey, armor, hget, -, hopens⟩ := h
  exact ⟨db.erase (infoKey name),
    by simp [call, Keys.delete, hget, hopens, bind, Except.bind, pure, Except.pure]⟩

theorem keptFrom_of_careful {history : List (DB × Call)} (hrun : Run (step env) db history db')
    (hcareful : Run.Meets (Careful env) history) (h : Stored env db name priv passphrase) :
    KeptFrom env name priv passphrase history := by
  induction history generalizing db passphrase with
  | nil => trivial
  | cons entry history ih =>
    obtain ⟨rfl, middle, hstep, hrest⟩ := Run.cons_iff.mp hrun
    obtain rfl : Keys.after env entry.1 entry.2 = middle := by
      cases hstep
      rfl
    by_cases hdelete : entry.2 = .delete name passphrase
    · refine .inl ⟨hdelete, ?_⟩
      rw [hdelete]
      exact h.delete_ok
    · have hstored := h.after (hcareful entry List.mem_cons_self) hdelete
      refine .inr ⟨hstored, hstored.signs, ih hrest ?_ hstored⟩
      exact fun entry' hentry' => hcareful entry' (List.mem_cons_of_mem _ hentry')

theorem delete_gone (hledger : isLedger (get env db name) = false)
    (h : call env db (.delete name passphrase) = .ok db') : ∃ err, get env db' name = .error err := by
  have herased : db' = db.erase (infoKey name) := by
    simp only [call, Keys.delete, bind_eq_ok] at h
    obtain ⟨info, hget, h⟩ := h
    cases info with
    | localInfo name' pubKey armor =>
      simp only [bind_eq_ok, pure_eq_ok] at h
      obtain ⟨key, -, rfl⟩ := h
      rfl
    | ledgerInfo name' pubKey path =>
      rw [hget] at hledger
      cases hledger
    | offlineInfo name' pubKey =>
      split_ifs at h
      cases h
      rfl
  rw [herased, get, rawInfo_erase, if_pos rfl]
  exact env.readInfo_nil

/-- In every sequence of calls, no private key is lost, names in use are refused and deleted names are
gone exactly if every call is careful. -/
theorem keys_kept_iff {start : DB} {history : List (DB × Call)}
    (hrun : Run (step env) start history db) :
    KeysKept env history ↔ Run.Meets (Careful env) history := by
  constructor
  · intro hkept entry hentry
    refine ⟨?_, ?_⟩
    · intro huse made hmade
      have hmakes : entry.2.makes = true := by
        cases hc : entry.2 with
        | createMnemonic | createKey | createFundraiserKey | derive | createLedger | createOffline
        | importInfo | importPubKey => rfl
        | update | delete =>
          rw [hc] at hmade
          cases hmade
      obtain ⟨err, hcall⟩ := hkept.refused entry hentry hmakes huse
      rw [call_created hmade] at hcall
      cases made with
      | error err => rfl
      | ok info => cases hcall
    · split
      · rename_i name passphrase hc
        by_contra hledger
        rw [Bool.not_eq_false] at hledger
        -- nothing was deleted, so the reference would still be found
        have hcall : call env entry.1 entry.2 = .ok entry.1 ∧
            ∃ info, get env entry.1 name = .ok info := by
          rw [hc]
          cases hget : get env entry.1 name with
          | error err =>
            rw [hget] at hledger
            cases hledger
          | ok info =>
            rw [hget] at hledger
            cases info with
            | ledgerInfo name' pubKey path =>
              exact ⟨by simp [call, Keys.delete, hget, bind, Except.bind, pure, Except.pure], _, rfl⟩
            | localInfo name' pubKey armor => cases hledger
            | offlineInfo name' pubKey => cases hledger
        obtain ⟨hcall, info, hget⟩ := hcall
        obtain ⟨err, herr⟩ := hkept.gone entry hentry name passphrase entry.1 hc hcall
        rw [hget] at herr
        cases herr
      · trivial
  · intro hcareful
    refine ⟨?_, ?_, ?_⟩
    · rintro earlier later rfl entry hentry name priv passphrase hstored
      obtain ⟨middle, -, hlater⟩ := Run.append_iff.mp hrun
      obtain ⟨entry', rest, rfl⟩ : ∃ entry' rest, later = entry' :: rest := by
        cases later with
        | nil => cases hentry
        | cons entry' rest => exact ⟨entry', rest, rfl⟩
      obtain rfl : entry' = entry := Option.some.inj hentry
      obtain ⟨rfl, -⟩ := Run.cons_iff.mp hlater
      refine keptFrom_of_careful hlater ?_ hstored
      exact fun entry hentry => hcareful entry (List.mem_append_right _ hentry)
    · intro entry hentry hmakes huse
      exact call_refused (hcareful entry hentry) hmakes huse
    · intro entry hentry name passphrase db' hc hcall
      have hledger := (hcareful entry hentry).2
      rw [hc] at hcall hledger
      exact delete_gone hledger hcall

namespace Example

/-- Entries by a number for their kind and their fields. -/
def infoWire : Wire Info :=
  (Wire.pair Wire.byte (Wire.pair Wire.string (Wire.pair (Wire.list Wire.byte)
    (Wire.pair (Wire.list Wire.byte) (Wire.list Wire.nat))))).retract
    (fun
      | .localInfo name pubKey armor => (0, name, pubKey, armor, [])
      | .ledgerInfo name pubKey path => (1, name, pubKey, [], path)
      | .offlineInfo name pubKey => (2, name, pubKey, [], []))
    (fun (kind, name, pubKey, armor, path) =>
      if kind = 0 then .localInfo name pubKey armor
      else if kind = 1 then .ledgerInfo name pubKey path
      else .offlineInfo name pubKey)
    (by rintro (_ | _ | _) <;> rfl)

/-- Armor that shows its passphrase. -/
def armorWire : Wire (String × PrivKey) := Wire.pair Wire.string (Wire.list Wire.byte)

theorem armorWire_put_ne_nil (x : String × PrivKey) : armorWire.put x ≠ [] := by
  intro hnil
  have hdecode := armorWire.decode_put x
  rw [hnil] at hdecode
  cases hdecode

/-- Keys are the seeds they come from, and mnemonics say nothing. -/
def backend : Backend where
  writeInfo := infoWire.put
  readInfo bz :=
    match infoWire.decode bz with
    | some info => .ok info
    | none => .error "cannot decode"
  readInfo_writeInfo info := by rw [infoWire.decode_put]
  readInfo_nil := ⟨_, rfl⟩
  newMnemonic _ := .ok []
  mnemonicToSeed _ := [1, 2, 3]
  mnemonicToSeedWithErrChecking _ := .ok [1, 2, 3]
  derivePrivateKeyForPath seed _ := .ok seed
  pubKey priv := priv.reverse
  sign priv msg := priv ++ msg
  encryptArmorPrivKey _ priv passphrase := armorWire.put (passphrase, priv)
  unarmorDecryptPrivKey armor passphrase :=
    match armorWire.decode armor with
    | some (passphrase', priv) =>
      if passphrase' = passphrase then .ok priv else .error "invalid account password"
    | none => .error "no armor"
  encryptArmorPrivKey_ne_nil _ priv passphrase := armorWire_put_ne_nil (passphrase, priv)
  unarmorDecryptPrivKey_encrypt _ priv passphrase := by
    rw [armorWire.decode_put]
    exact if_pos rfl
  passphrase_eq {armor passphrase passphrase' priv priv'} h h' := by
    cases hopen : armorWire.decode armor with
    | none =>
      rw [hopen] at h
      cases h
    | some pair =>
      rw [hopen] at h h'
      simp only at h h'
      split_ifs at h h' with hsame hsame'
      exact hsame.symm.trans hsame'
  unarmorInfoBytes _ := .error "no armor"
  unarmorPubKeyBytes _ := .error "no armor"
  pubKeyFromBytes bz := .ok bz

/-- A new key with a passphrase. -/
def newKey : Call := .createMnemonic [] [] "john" .english "secret" .secp256k1

/-- The entry of the new key. -/
def johnInfo : Info := .localInfo "john" [3, 2, 1] (armorWire.put ("secret", [1, 2, 3]))

/-- The database with the new key. -/
def johnDB : DB := writeInfo backend ∅ johnInfo "john"

theorem call_newKey : call backend ∅ newKey = .ok johnDB := rfl

theorem stored_john : Stored backend johnDB "john" [1, 2, 3] "secret" :=
  ⟨"john", [3, 2, 1], _, get_writeInfo backend ∅ johnInfo "john", armorWire_put_ne_nil _,
    backend.unarmorDecryptPrivKey_encrypt [] [1, 2, 3] "secret"⟩

/-- The new key, and then another call. -/
def thenCall (c : Call) : List (DB × Call) := [(∅, newKey), (johnDB, c)]

theorem run_thenCall (c : Call) :
    Run (step backend) ∅ (thenCall c) (after backend johnDB c) := by
  have hfirst : step backend ∅ newKey = .ok johnDB := by
    rw [step, after_of_ok call_newKey]
  exact Run.cons hfirst (Run.cons rfl .nil)

theorem careful_newKey : Careful backend ∅ newKey := by
  refine ⟨fun huse => ?_, trivial⟩
  rw [InUse, rawInfo, KVStore.getElem?_empty] at huse
  exact absurd huse (lt_irrefl 0)

end Example

/-- A key is created and deleted again with its passphrase. -/
theorem keys_kept_iff_twoCalls :
    ∃ db, Run (step Example.backend) ∅ (Example.thenCall (.delete "john" "secret")) db ∧
      KeysKept Example.backend (Example.thenCall (.delete "john" "secret")) ∧
      ∃ err, get Example.backend db "john" = .error err := by
  have hrun := Example.run_thenCall (.delete "john" "secret")
  have hget : get Example.backend Example.johnDB "john" = .ok Example.johnInfo :=
    get_writeInfo Example.backend ∅ Example.johnInfo "john"
  have hcareful : Careful Example.backend Example.johnDB (.delete "john" "secret") := by
    refine ⟨fun _ made hmade => absurd hmade (Option.not_mem_none made), ?_⟩
    have hlocal : isLedger (get Example.backend Example.johnDB "john") = false := by
      rw [hget]
      rfl
    exact hlocal
  have hkept : KeysKept Example.backend (Example.thenCall (.delete "john" "secret")) := by
    refine (keys_kept_iff hrun).mpr ?_
    intro entry hentry
    rcases List.mem_cons.mp hentry with rfl | hentry
    · exact Example.careful_newKey
    · obtain rfl := List.mem_singleton.mp hentry
      exact hcareful
  obtain ⟨db, hcall⟩ := Example.stored_john.delete_ok
  refine ⟨_, hrun, hkept, ?_⟩
  rw [after_of_ok hcall]
  exact hkept.gone _ (List.mem_cons_of_mem _ List.mem_cons_self) "john" "secret" db rfl hcall

/-- A second entry is created under the name of a private key: there is no error, and the key is gone.
And a Ledger reference is deleted without an error and still there. -/
theorem keys_overwritten :
    Run (step Example.backend) ∅ (Example.thenCall (.createOffline "john" [9]))
        (writeInfo Example.backend Example.johnDB (.offlineInfo "john" [9]) "john") ∧
      Stored Example.backend Example.johnDB "john" [1, 2, 3] "secret" ∧
      (∀ priv passphrase, ¬ Stored Example.backend
        (writeInfo Example.backend Example.johnDB (.offlineInfo "john" [9]) "john") "john" priv
        passphrase) ∧
      ¬ KeysKept Example.backend (Example.thenCall (.createOffline "john" [9])) ∧
      ∃ db, call Example.backend ∅ (.createLedger (.ok [7]) "nano" [44, 118] .secp256k1) = .ok db ∧
        call Example.backend db (.delete "nano" "yes") = .ok db ∧
        get Example.backend db "nano" = .ok (.ledgerInfo "nano" [7] [44, 118]) := by
  have hget := get_writeInfo Example.backend Example.johnDB (.offlineInfo "john" [9]) "john"
  refine ⟨Example.run_thenCall (.createOffline "john" [9]), Example.stored_john, ?_, ?_, ?_⟩
  · rintro priv passphrase ⟨name', pubKey, armor, hlocal, -, -⟩
    rw [hget] at hlocal
    cases hlocal
  · intro hkept
    obtain ⟨err, hcall⟩ := hkept.refused _ (List.mem_cons_of_mem _ List.mem_cons_self) rfl
      Example.stored_john.inUse
    cases hcall
  · have hnano := get_writeInfo Example.backend ∅ (.ledgerInfo "nano" [7] [44, 118]) "nano"
    refine ⟨writeInfo Example.backend ∅ (.ledgerInfo "nano" [7] [44, 118]) "nano", rfl, ?_, hnano⟩
    simp [call, Keys.delete, hnano, bind, Except.bind, pure, Except.pure]

end Tepleton.Crypto.Keys
