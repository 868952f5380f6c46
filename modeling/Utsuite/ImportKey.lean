import Utsuite.CryptoKeyStore

namespace Utsuite.ImportKey

open ByteWords CryptoKeyStore CurveKeys Hoare List Function
open Wallet (CKey CPubKey CKeyID CPrivKey)

structure CKeyMetadata where
  nVersion : Int
  nCreateTime : Int
  deriving DecidableEq

def CKeyMetadata.new : CKeyMetadata := ⟨1, 0⟩

structure CAddressBookData where
  name : Bytes
  purpose : Bytes
  deriving DecidableEq

def unknownPurpose : Bytes := [117, 110, 107, 110, 111, 119, 110]

def receive : Bytes := [114, 101, 99, 101, 105, 118, 101]

def CAddressBookData.new : CAddressBookData := ⟨[], unknownPurpose⟩

inductive RecordKey
  | name (strAddress : Bytes)
  | purpose (strAddress : Bytes)
  | keymeta (vchPubKey : CPubKey)
  | key (vchPubKey : CPubKey)
  | ckey (vchPubKey : CPubKey)
  | wkey (vchPubKey : CPubKey)
  | watchs (dest : Bytes)
  deriving DecidableEq

inductive RecordValue
  | text (str : Bytes)
  | keymeta (keyMeta : CKeyMetadata)
  | key (vchPrivKey : CPrivKey) (hash : Bytes)
  | ckey (vchCryptedSecret : Bytes)
  | other (value : Bytes)
  deriving DecidableEq

structure CWallet where
  store : CCryptoKeyStore
  setWatchOnly : Finset Bytes
  mapKeyMetadata : CKeyID → Option CKeyMetadata
  mapAddressBook : CKeyID → Option CAddressBookData
  nTimeFirstKey : Int
  fFileBacked : Bool
  db : RecordKey → Option RecordValue

def CWallet.put (w : CWallet) (record : RecordKey) (value : Option RecordValue) : CWallet :=
  { w with db := update w.db record value }

/-- What `importprivkey` calls outside of the wallet. `opens`, `puts` and `dels` say which
operations Berkeley DB accepts for a record. -/
structure Env where
  fn : Crypt
  setString : Bytes → Option (Option CKey)
  getPrivKey : CKey → CPrivKey
  hash : Bytes → Bytes
  toString : CKeyID → Bytes
  getScriptForDestination : CKeyID → Bytes
  getScriptForRawPubKey : CPubKey → Bytes
  opens : RecordKey → Bool
  puts : RecordKey → Bool
  dels : RecordKey → Bool

inductive Thrown
  | jsonRPCError (code : Int) (message : String)
  | runtimeError
  | assertion
  deriving DecidableEq

abbrev ImportM := EStateM Thrown CWallet

def rpcInvalidAddressOrKey : Int := -5

def rpcWalletError : Int := -4

variable (E : Env)

def openDB (record : RecordKey) : ImportM Unit :=
  if E.opens record then pure () else throw .runtimeError

def write (record : RecordKey) (value : RecordValue) (fOverwrite : Bool) : ImportM Bool := do
  let w ← get
  if E.puts record && (fOverwrite || (w.db record).isNone) then
    set (w.put record (some value))
    pure true
  else
    pure false

def erase (record : RecordKey) : ImportM Bool := do
  let w ← get
  if E.dels record then
    set (w.put record none)
    pure true
  else
    pure false

def writeName (strAddress strName : Bytes) : ImportM Bool := do
  openDB E (.name strAddress)
  write E (.name strAddress) (.text strName) true

def writePurpose (strAddress strPurpose : Bytes) : ImportM Bool := do
  openDB E (.purpose strAddress)
  write E (.purpose strAddress) (.text strPurpose) true

def writeKey (vchPubKey : CPubKey) (vchPrivKey : CPrivKey) (keyMeta : CKeyMetadata) : ImportM Bool := do
  openDB E (.keymeta vchPubKey)
  if !(← write E (.keymeta vchPubKey) (.keymeta keyMeta) false) then
    pure false
  else
    write E (.key vchPubKey) (.key vchPrivKey (E.hash (vchPubKey ++ vchPrivKey))) false

def writeCryptedKey (vchPubKey : CPubKey) (vchCryptedSecret : Bytes) (keyMeta : CKeyMetadata) :
    ImportM Bool := do
  openDB E (.keymeta vchPubKey)
  if !(← write E (.keymeta vchPubKey) (.keymeta keyMeta) true) then
    pure false
  else if !(← write E (.ckey vchPubKey) (.ckey vchCryptedSecret) false) then
    pure false
  else
    discard <| erase E (.key vchPubKey)
    discard <| erase E (.wkey vchPubKey)
    pure true

def eraseWatchOnly (dest : Bytes) : ImportM Bool := do
  openDB E (.watchs dest)
  erase E (.watchs dest)

def keyMetadata (keyid : CKeyID) : ImportM CKeyMetadata := do
  let w ← get
  let keyMeta := (w.mapKeyMetadata keyid).getD .new
  set { w with mapKeyMetadata := update w.mapKeyMetadata keyid (some keyMeta) }
  pure keyMeta

def CWallet.withCreateTime (w : CWallet) (keyid : CKeyID) (nTime : Int) : CWallet :=
  let keyMeta := { (w.mapKeyMetadata keyid).getD .new with nCreateTime := nTime }
  { w with mapKeyMetadata := update w.mapKeyMetadata keyid (some keyMeta) }

def CWallet.withEntry (w : CWallet) (address : CKeyID) (strName strPurpose : Bytes) : CWallet :=
  let entry := (w.mapAddressBook address).getD .new
  let entry := { entry with name := strName }
  let entry := if strPurpose ≠ [] then { entry with purpose := strPurpose } else entry
  { w with mapAddressBook := update w.mapAddressBook address (some entry) }

def setAddressBook (address : CKeyID) (strName strPurpose : Bytes) : ImportM Bool := do
  modify fun w => w.withEntry address strName strPurpose
  if !(← get).fFileBacked then
    pure false
  else if strPurpose ≠ [] then
    if !(← writePurpose E (E.toString address) strPurpose) then
      pure false
    else
      writeName E (E.toString address) strName
  else
    writeName E (E.toString address) strName

def haveKey (s : CCryptoKeyStore) (address : CKeyID) : Bool :=
  if !s.fUseCrypto then (s.mapKeys.lookup address).isSome else (s.mapCryptedKeys.lookup address).isSome

def removeWatchOnly (dest : Bytes) : ImportM Bool := do
  modify fun w => { w with setWatchOnly := w.setWatchOnly.erase dest }
  if (← get).fFileBacked then
    eraseWatchOnly E dest
  else
    pure true

def addCryptedKey (vchPubKey : CPubKey) (vchCryptedSecret : Bytes) : ImportM Bool := do
  let w ← get
  let (added, store) := w.store.addCryptedKey E.fn vchPubKey vchCryptedSecret
  set { w with store := store }
  if !added then
    pure false
  else if !w.fFileBacked then
    pure true
  else
    let keyMeta ← keyMetadata (E.fn.getID vchPubKey)
    writeCryptedKey E vchPubKey vchCryptedSecret keyMeta

def addKeyToStore (key : CKey) (pubkey : CPubKey) : ImportM Bool := do
  let w ← get
  if !w.store.fUseCrypto then
    set { w with store := { w.store with mapKeys := w.store.mapKeys.insert (E.fn.getID pubkey) key } }
    pure true
  else if w.store.isLocked true then
    pure false
  else
    match E.fn.encryptSecret w.store.vMasterKey key.vch (E.fn.getHash pubkey) with
    | none => pure false
    | some vchCryptedSecret => addCryptedKey E pubkey vchCryptedSecret

def dropWatchOnly (script : Bytes) : ImportM Unit := do
  if script ∈ (← get).setWatchOnly then
    discard <| removeWatchOnly E script

def addKeyPubKey (secret : CKey) (pubkey : CPubKey) : ImportM Bool := do
  if !(← addKeyToStore E secret pubkey) then
    pure false
  else
    dropWatchOnly E (E.getScriptForDestination (E.fn.getID pubkey))
    dropWatchOnly E (E.getScriptForRawPubKey pubkey)
    let w ← get
    if !w.fFileBacked then
      pure true
    else if !w.store.fUseCrypto then
      let keyMeta ← keyMetadata (E.fn.getID pubkey)
      writeKey E pubkey (E.getPrivKey secret) keyMeta
    else
      pure true

/-- The returned value together with `addr`. `EnsureWalletIsUnlocked` is modelled as in the source,
where it refuses nothing. -/
def importprivkey (params : Bytes) : ImportM (Bool × Bytes) := do
  match E.setString params with
  | none => throw (.jsonRPCError rpcInvalidAddressOrKey "Invalid private key encoding")
  | some none => throw (.jsonRPCError rpcInvalidAddressOrKey "Private key outside allowed range")
  | some (some key) =>
    let pubkey := E.fn.getPubKey key
    if !E.fn.verifyPubKey key pubkey then throw .assertion
    else
      let vchAddress := E.fn.getID pubkey
      let addr := E.toString vchAddress
      discard <| setAddressBook E vchAddress [] receive
      if haveKey (← get).store vchAddress then
        pure (false, addr)
      else
        modify fun w => w.withCreateTime vchAddress 1
        if !(← addKeyPubKey E key pubkey) then
          throw (.jsonRPCError rpcWalletError "Error adding key to wallet")
        else
          modify fun w => { w with nTimeFirstKey := 1 }
          pure (true, addr)

/-- The keys, the metadata, the address book and all of their records are as they were before. -/
structure Kept (w w' : CWallet) : Prop where
  mapKeys : w'.store.mapKeys = w.store.mapKeys
  mapCryptedKeys : w'.store.mapCryptedKeys = w.store.mapCryptedKeys
  mapKeyMetadata : w'.mapKeyMetadata = w.mapKeyMetadata
  mapAddressBook : w'.mapAddressBook = w.mapAddressBook
  db : ∀ record, (∀ dest, record ≠ .watchs dest) → w'.db record = w.db record

inductive Rejected (w : CWallet) (params : Bytes) : CWallet → Prop
  | returned {addr w'} : importprivkey E params w = .ok (false, addr) w' → Rejected w params w'
  | thrown {e w'} : importprivkey E params w = .error e w' → Rejected w params w'

def BookWritten (w : CWallet) (address : CKeyID) : Prop :=
  w.fFileBacked = true → E.opens (.purpose (E.toString address)) = true ∧
    (E.puts (.purpose (E.toString address)) = true → E.opens (.name (E.toString address)) = true)

/-- The address has the empty name and the purpose `receive` already, in memory and in the file. -/
def BookSettled (w : CWallet) (address : CKeyID) : Prop :=
  w.mapAddressBook address = some ⟨[], receive⟩ ∧
    (w.fFileBacked = true → E.opens (.purpose (E.toString address)) = true →
      E.puts (.purpose (E.toString address)) = true →
        w.db (.purpose (E.toString address)) = some (.text receive) ∧
          (E.opens (.name (E.toString address)) = true → E.puts (.name (E.toString address)) = true →
            w.db (.name (E.toString address)) = some (.text [])))

def CreateTimeSettled (w : CWallet) (address : CKeyID) : Prop :=
  (w.mapKeyMetadata address).map (·.nCreateTime) = some 1

def StoreRefuses (w : CWallet) : Prop :=
  w.store.fUseCrypto = true ∧ (w.store.isLocked true = true ∨ w.store.vMasterKey.length ≠ 32)

def WatchOpens (w : CWallet) (script : Bytes) : Prop :=
  script ∈ w.setWatchOnly → w.fFileBacked = true → E.opens (.watchs script) = true

def KeyFits (w : CWallet) (pubkey : CPubKey) : Prop :=
  E.opens (.keymeta pubkey) = true ∧ E.puts (.keymeta pubkey) = true ∧
    if w.store.fUseCrypto then E.puts (.ckey pubkey) = true ∧ w.db (.ckey pubkey) = none
    else w.db (.keymeta pubkey) = none ∧ E.puts (.key pubkey) = true ∧ w.db (.key pubkey) = none

def Storable (w : CWallet) (pubkey : CPubKey) : Prop :=
  ¬StoreRefuses w ∧ WatchOpens E w (E.getScriptForDestination (E.fn.getID pubkey)) ∧
    WatchOpens E w (E.getScriptForRawPubKey pubkey) ∧ (w.fFileBacked = true → KeyFits E w pubkey)

section

variable {w w' : CWallet}

theorem Kept.refl (w : CWallet) : Kept w w := ⟨rfl, rfl, rfl, rfl, fun _ _ => rfl⟩

theorem kept_put_iff (record : RecordKey) (value : RecordValue) (hrecord : ∀ dest, record ≠ .watchs dest)
    (hsame : w'.db record = w.db record) :
    Kept w (w'.put record (some value)) ↔ Kept w w' ∧ w.db record = some value := by
  constructor
  · intro h
    have hvalue := h.db record hrecord
    simp only [CWallet.put, update_self] at hvalue
    refine ⟨{ h with db := ?_ }, hvalue.symm⟩
    intro other hother
    by_cases heq : other = record
    · rw [heq, hsame]
    · simpa only [CWallet.put, update_of_ne heq] using h.db other hother
  · rintro ⟨h, hvalue⟩
    refine { h with db := ?_ }
    intro other hother
    by_cases heq : other = record
    · simp [heq, CWallet.put, hvalue]
    · simpa only [CWallet.put, update_of_ne heq] using h.db other hother

theorem kept_withEntry_iff (address : CKeyID) :
    Kept w (w.withEntry address [] receive) ↔ w.mapAddressBook address = some ⟨[], receive⟩ := by
  have hentry : (w.withEntry address [] receive).mapAddressBook =
      update w.mapAddressBook address (some ⟨[], receive⟩) := by
    simp [CWallet.withEntry, receive]
  constructor
  · intro h
    have hbook := congrFun (hentry.symm.trans h.mapAddressBook) address
    rw [update_self] at hbook
    exact hbook.symm
  · intro h
    refine ⟨rfl, rfl, rfl, ?_, fun _ _ => rfl⟩
    rw [hentry, ← h, update_eq_self]

end

structure BookOnly (w w' : CWallet) : Prop where
  store : w'.store = w.store
  setWatchOnly : w'.setWatchOnly = w.setWatchOnly
  mapKeyMetadata : w'.mapKeyMetadata = w.mapKeyMetadata
  fFileBacked : w'.fFileBacked = w.fFileBacked
  keymeta : ∀ pubkey, w'.db (.keymeta pubkey) = w.db (.keymeta pubkey)
  key : ∀ pubkey, w'.db (.key pubkey) = w.db (.key pubkey)
  ckey : ∀ pubkey, w'.db (.ckey pubkey) = w.db (.ckey pubkey)

structure SameButRecords (w w' : CWallet) : Prop where
  store : w'.store = w.store
  setWatchOnly : w'.setWatchOnly = w.setWatchOnly
  fFileBacked : w'.fFileBacked = w.fFileBacked

theorem SameButRecords.refl (w : CWallet) : SameButRecords w w := ⟨rfl, rfl, rfl⟩

section

variable {E}

theorem openDB_spec (record : RecordKey) (w : CWallet) :
    Triple (fun s => s = w) (openDB E record) (fun _ w' => E.opens record = true ∧ w' = w)
      (fun _ w' => E.opens record = false ∧ w' = w) := by
  unfold openDB
  apply Triple.ite
  · intro hopens
    exact Triple.pure fun s hs => ⟨hopens, hs⟩
  · intro hopens
    exact Triple.throw fun s hs => ⟨Bool.not_eq_true _ ▸ hopens, hs⟩

theorem write_spec (record : RecordKey) (value : RecordValue) (fOverwrite : Bool) (w : CWallet) :
    Triple (fun s => s = w) (write E record value fOverwrite)
      (fun taken w' => (taken = true ↔ E.puts record = true ∧ (fOverwrite = true ∨ w.db record = none)) ∧
        w' = if taken then w.put record (some value) else w) Q := by
  rintro s rfl
  cases hputs : E.puts record <;> cases hover : fOverwrite <;> cases hdb : s.db record <;>
    simp [write, hputs, hdb]

theorem erase_spec (record : RecordKey) (hP : ∀ w, P w → P (w.put record none)) :
    Triple P (erase E record) (fun _ => P) Q := by
  apply Triple.get_bind
  intro s hs
  apply Triple.ite
  · intro _
    apply Triple.bind (R := fun _ => P) (Triple.set fun _ _ => hP s hs)
    exact fun _ => Triple.pure fun _ => id
  · exact fun _ => Triple.pure fun t ht => ht ▸ hs

theorem overwrite_spec (record : RecordKey) (value : RecordValue) (w : CWallet) :
    Triple (fun s => s = w) (openDB E record >>= fun _ => write E record value true)
      (fun taken w' => E.opens record = true ∧ E.puts record = taken ∧
        w' = if taken then w.put record (some value) else w)
      (fun _ w' => E.opens record = false ∧ w' = w) := by
  apply Triple.bind (openDB_spec record w)
  rintro _ w ⟨hopens, rfl⟩
  apply (write_spec record value true w).post _ w rfl
  rintro taken s ⟨htaken, rfl⟩
  refine ⟨hopens, ?_, rfl⟩
  simpa using htaken.symm

end

section

variable {E}

variable {w w' : CWallet} {address : CKeyID}

theorem bookOnly_withEntry (w : CWallet) (strName strPurpose : Bytes) :
    BookOnly w (w.withEntry address strName strPurpose) :=
  ⟨rfl, rfl, rfl, rfl, fun _ => rfl, fun _ => rfl, fun _ => rfl⟩

theorem BookOnly.put_purpose (h : BookOnly w w') (strAddress : Bytes) (value : Option RecordValue) :
    BookOnly w (w'.put (.purpose strAddress) value) :=
  { h with }

theorem BookOnly.put_name (h : BookOnly w w') (strAddress : Bytes) (value : Option RecordValue) :
    BookOnly w (w'.put (.name strAddress) value) :=
  { h with }

theorem setAddressBook_spec (w : CWallet) (address : CKeyID) :
    Triple (fun s => s = w) (setAddressBook E address [] receive)
      (fun _ w' => BookWritten E w address ∧ BookOnly w w' ∧ (Kept w w' ↔ BookSettled E w address))
      (fun _ w' => ¬BookWritten E w address ∧ BookOnly w w' ∧ (Kept w w' ↔ BookSettled E w address)) := by
  -- The wallet after the entry, after the purpose's record and after the name's.
  let w₁ := w.withEntry address [] receive
  let w₂ := w₁.put (.purpose (E.toString address)) (some (.text receive))
  have honly₁ : BookOnly w w₁ := bookOnly_withEntry w [] receive
  have honly₂ : BookOnly w w₂ := honly₁.put_purpose _ _
  have hkept₁ : Kept w w₁ ↔ _ := kept_withEntry_iff address
  have hkept₂ : Kept w w₂ ↔ _ := kept_put_iff (.purpose (E.toString address)) (.text receive) nofun rfl
  have hkept₃ : Kept w (w₂.put (.name (E.toString address)) (some (.text []))) ↔ _ :=
    kept_put_iff (.name (E.toString address)) (.text []) nofun rfl
  unfold setAddressBook
  apply Triple.bind (R := fun _ s => s = w₁) (Triple.modify fun s hs => by rw [hs])
  intro _
  apply Triple.get_bind
  rintro s rfl
  have hfile : w₁.fFileBacked = w.fFileBacked := rfl
  apply Triple.ite_not
  · intro hno
    apply Triple.pure
    rintro s rfl
    rw [hfile] at hno
    simp [BookWritten, BookSettled, hno, honly₁, hkept₁]
  intro hyes
  rw [hfile] at hyes
  rw [if_pos (by decide)]
  apply Triple.bind_throw (overwrite_spec _ _ w₁)
  · rintro _ s ⟨hopens, rfl⟩
    simp [BookWritten, BookSettled, hyes, hopens, honly₁, hkept₁]
  · intro taken
    apply Triple.ite_not
    · rintro rfl
      apply Triple.pure
      rintro s ⟨hopens, hputs, rfl⟩
      simp [BookWritten, BookSettled, hyes, hopens, hputs, honly₁, hkept₁]
    · rintro rfl s ⟨hopens, hputs, rfl⟩
      -- What is known of the purpose's record stays at hand for the name's.
      apply (overwrite_spec _ _ w₂).imp _ _ _ rfl
      · rintro taken s ⟨hopens', hputs', rfl⟩
        cases taken with
        | false => simp [BookWritten, BookSettled, hyes, hopens, hputs, hopens', hputs', honly₂, hkept₂, hkept₁]
        | true =>
          simp [BookWritten, BookSettled, hyes, hopens, hputs, hopens', hputs', honly₂.put_name, hkept₃,
            hkept₂, hkept₁, and_assoc]
      · rintro _ s ⟨hopens', rfl⟩
        simp [BookWritten, BookSettled, hyes, hopens, hputs, hopens', honly₂, hkept₂, hkept₁]

end

section

variable {E} {w : CWallet} {pubkey : CPubKey}

def Holds (w : CWallet) (address : CKeyID) (w' : CWallet) : Prop :=
  w'.store.fUseCrypto = w.store.fUseCrypto ∧ haveKey w'.store address = true

theorem Holds.of_store (h : Holds w address w₁) (hstore : w₂.store = w₁.store) :
    Holds w address w₂ := by
  unfold Holds
  rw [hstore]
  exact h

theorem Holds.not_kept (h : Holds w address w') (hnew : haveKey w.store address = false) :
    ¬Kept w w' := by
  intro hkept
  have hsame : haveKey w'.store address = haveKey w.store address := by
    simp only [haveKey, h.1, hkept.mapKeys, hkept.mapCryptedKeys]
  rw [h.2, hnew] at hsame
  exact absurd hsame (by decide)

theorem writeKey_spec (w : CWallet) (vchPrivKey : CPrivKey) (keyMeta : CKeyMetadata)
    (hplain : w.store.fUseCrypto = false) :
    Triple (fun s => s = w) (writeKey E pubkey vchPrivKey keyMeta)
      (fun stored w' => w'.store = w.store ∧ (stored = true ↔ KeyFits E w pubkey))
      (fun _ w' => w'.store = w.store ∧ ¬KeyFits E w pubkey) := by
  unfold writeKey
  apply Triple.bind_throw (openDB_spec (.keymeta pubkey) w)
  · rintro _ s ⟨hopens, rfl⟩
    exact ⟨rfl, fun hfits => absurd hfits.1 (Bool.not_eq_true _ ▸ hopens)⟩
  rintro _ w ⟨hopens, rfl⟩
  apply Triple.bind (write_spec _ _ false w) _ w rfl
  rintro (_ | _) s ⟨htaken, rfl⟩
  · refine ⟨rfl, ?_⟩
    simp only [Bool.false_eq_true, false_or, false_iff] at htaken ⊢
    rintro ⟨-, hputs, hrecords⟩
    rw [if_neg (by simp [hplain])] at hrecords
    exact htaken ⟨hputs, hrecords.1⟩
  · obtain ⟨hputs, hfree⟩ := htaken.1 rfl
    apply (write_spec _ _ false _).post _ _ rfl
    rintro stored s ⟨hstored, rfl⟩
    refine ⟨by cases stored <;> rfl, hstored.trans ?_⟩
    have hkey : (w.put (.keymeta pubkey) (some (.keymeta keyMeta))).db (.key pubkey) = w.db (.key pubkey) := rfl
    simp only [Bool.false_eq_true, false_or] at hfree
    simp [KeyFits, hplain, hopens, hputs, hfree, hkey]

theorem writeCryptedKey_spec (w : CWallet) (vchCryptedSecret : Bytes) (keyMeta : CKeyMetadata)
    (hcrypted : w.store.fUseCrypto = true) :
    Triple (fun s => s = w) (writeCryptedKey E pubkey vchCryptedSecret keyMeta)
      (fun stored w' => SameButRecords w w' ∧ (stored = true ↔ KeyFits E w pubkey))
      (fun _ w' => SameButRecords w w' ∧ ¬KeyFits E w pubkey) := by
  unfold writeCryptedKey
  apply Triple.bind_throw (openDB_spec (.keymeta pubkey) w)
  · rintro _ s ⟨hopens, rfl⟩
    exact ⟨.refl _, fun hfits => absurd hfits.1 (Bool.not_eq_true _ ▸ hopens)⟩
  rintro _ w ⟨hopens, rfl⟩
  apply Triple.bind (write_spec _ _ true w) _ w rfl
  rintro (_ | _) s ⟨htaken, rfl⟩
  · refine ⟨.refl _, ?_⟩
    simp only [Bool.false_eq_true, true_or, and_true, false_iff] at htaken ⊢
    exact fun hfits => htaken hfits.2.1
  have hputs := (htaken.1 rfl).1
  apply Triple.bind (write_spec _ _ false _) _ _ rfl
  rintro (_ | _) s ⟨htaken', rfl⟩
  · refine ⟨⟨rfl, rfl, rfl⟩, ?_⟩
    simp only [Bool.false_eq_true, false_or, false_iff] at htaken' ⊢
    rintro ⟨-, -, hrecords⟩
    rw [if_pos hcrypted] at hrecords
    exact htaken' hrecords
  · obtain ⟨hputs', hfree⟩ := htaken'.1 rfl
    have hfits : KeyFits E w pubkey := by
      have hckey : (w.put (.keymeta pubkey) (some (.keymeta keyMeta))).db (.ckey pubkey) =
        w.db (.ckey pubkey) := rfl
      refine ⟨hopens, hputs, ?_⟩
      rw [if_pos hcrypted]
      exact ⟨hputs', hckey ▸ hfree.resolve_left Bool.false_ne_true⟩
    have herase : Triple (SameButRecords w)
        (discard (erase E (.key pubkey)) >>= fun _ => discard (erase E (.wkey pubkey)) >>= fun _ => pure true)
        (fun stored w' => SameButRecords w w' ∧ (stored = true ↔ KeyFits E w pubkey))
        (fun _ w' => SameButRecords w w' ∧ ¬KeyFits E w pubkey) := by
      have hput : ∀ record s, SameButRecords w s → SameButRecords w (s.put record none) :=
        fun _ _ hs => ⟨hs.store, hs.setWatchOnly, hs.fFileBacked⟩
      apply Triple.bind (R := fun _ => SameButRecords w) (Triple.map (erase_spec _ (hput _)))
      intro _
      apply Triple.bind (R := fun _ => SameButRecords w) (Triple.map (erase_spec _ (hput _)))
      intro _
      exact Triple.pure fun s hs => ⟨hs, iff_of_true rfl hfits⟩
    exact herase _ ⟨rfl, rfl, rfl⟩

structure WatchDropped (w : CWallet) (script : Bytes) (w' : CWallet) : Prop where
  store : w'.store = w.store
  setWatchOnly : w'.setWatchOnly = w.setWatchOnly.erase script
  fFileBacked : w'.fFileBacked = w.fFileBacked
  db : ∀ record, (∀ dest, record ≠ .watchs dest) → w'.db record = w.db record

theorem dropWatchOnly_spec (w : CWallet) (script : Bytes) :
    Triple (fun s => s = w) (dropWatchOnly E script)
      (fun _ w' => WatchOpens E w script ∧ WatchDropped w script w')
      (fun _ w' => ¬WatchOpens E w script ∧ w'.store = w.store) := by
  unfold dropWatchOnly
  apply Triple.get_bind
  rintro w rfl
  apply Triple.ite
  · intro hwatched
    let w₁ : CWallet := { w with setWatchOnly := w.setWatchOnly.erase script }
    have hdropped : WatchDropped w script w₁ := ⟨rfl, rfl, rfl, fun _ _ => rfl⟩
    apply Triple.map
    apply Triple.bind (R := fun _ s => s = w₁) (Triple.modify fun s hs => by rw [hs])
    intro _
    apply Triple.get_bind
    rintro _ rfl
    apply Triple.ite
    · intro hfile
      apply Triple.bind_throw (openDB_spec (.watchs script) w₁)
      · rintro _ s ⟨hopens, rfl⟩
        exact ⟨fun h => absurd (h hwatched hfile) (Bool.not_eq_true _ ▸ hopens), rfl⟩
      rintro _ s ⟨hopens, rfl⟩
      apply (erase_spec (.watchs script) _).post (fun _ s hs => ⟨fun _ _ => hopens, hs⟩) _ hdropped
      intro s hs
      refine ⟨hs.store, hs.setWatchOnly, hs.fFileBacked, fun record hrecord => ?_⟩
      exact (Function.update_of_ne (hrecord script) _ _).trans (hs.db record hrecord)
    · intro hfile
      exact Triple.pure fun s hs => ⟨fun _ h => absurd h hfile, hs ▸ hdropped⟩
  · intro hwatched
    apply Triple.pure
    rintro s rfl
    exact ⟨fun h => absurd h hwatched, rfl, (Finset.erase_eq_of_notMem hwatched).symm, rfl, fun _ _ => rfl⟩

theorem haveKey_insert {s : CCryptoKeyStore} (hplain : s.fUseCrypto = false) (address : CKeyID) (key : CKey) :
    haveKey { s with mapKeys := s.mapKeys.insert address key } address = true := by
  simp [haveKey, hplain]

theorem haveKey_insert_crypted {s : CCryptoKeyStore} (hcrypted : s.fUseCrypto = true) (address : CKeyID)
    (value : CPubKey × Bytes) :
    haveKey { s with mapCryptedKeys := s.mapCryptedKeys.insert address value } address = true := by
  simp [haveKey, hcrypted]

theorem keyFits_congr (hcrypto : w'.store.fUseCrypto = w.store.fUseCrypto)
    (hdb : ∀ record, (∀ dest, record ≠ .watchs dest) → w'.db record = w.db record) :
    KeyFits E w' pubkey ↔ KeyFits E w pubkey := by
  unfold KeyFits
  rw [hcrypto, hdb (.ckey pubkey) nofun, hdb (.keymeta pubkey) nofun, hdb (.key pubkey) nofun]

theorem keyMetadata_spec (keyid : CKeyID) (w : CWallet) :
    Triple (fun s => s = w) (keyMetadata keyid) (fun _ w' => SameButRecords w w' ∧ w'.db = w.db) Q := by
  rintro s rfl
  exact ⟨⟨rfl, rfl, rfl⟩, rfl⟩

theorem addCryptedKey_spec (w : CWallet) (vchCryptedSecret : Bytes) (hcrypted : w.store.fUseCrypto = true) :
    Triple (fun s => s = w) (addCryptedKey E pubkey vchCryptedSecret)
      (fun added w' => Holds w (E.fn.getID pubkey) w' ∧ w'.setWatchOnly = w.setWatchOnly ∧
        w'.fFileBacked = w.fFileBacked ∧ (added = true ↔ (w.fFileBacked = true → KeyFits E w pubkey)))
      (fun _ w' => Holds w (E.fn.getID pubkey) w' ∧ ¬(w.fFileBacked = true → KeyFits E w pubkey)) := by
  let w₁ : CWallet := { w with store := { w.store with
    mapCryptedKeys := w.store.mapCryptedKeys.insert (E.fn.getID pubkey) (pubkey, vchCryptedSecret) } }
  have hadd : w.store.addCryptedKey E.fn pubkey vchCryptedSecret = (true, w₁.store) := by
    simp [CCryptoKeyStore.addCryptedKey, CCryptoKeyStore.setCrypted, hcrypted, w₁]
  have hholds : Holds w (E.fn.getID pubkey) w₁ := ⟨rfl, haveKey_insert_crypted hcrypted _ _⟩
  unfold addCryptedKey
  apply Triple.get_bind
  rintro w rfl
  simp only [hadd]
  apply Triple.bind (R := fun _ s => s = w₁) (Triple.set fun _ _ => rfl)
  intro _
  rw [if_neg (by decide)]
  apply Triple.ite_not
  · intro hfile
    apply Triple.pure
    rintro s rfl
    exact ⟨hholds, rfl, rfl, iff_of_true rfl fun h => absurd h (by simpa using hfile)⟩
  intro hfile
  apply Triple.bind (keyMetadata_spec (E.fn.getID pubkey) w₁)
  rintro keyMeta s ⟨hs, hdb⟩
  have hfits : KeyFits E s pubkey ↔ (w.fFileBacked = true → KeyFits E w pubkey) := by
    rw [keyFits_congr (w := w) (by rw [hs.store]) fun record _ => congrFun hdb record]
    exact ⟨fun h _ => h, fun h => h hfile⟩
  have hcrypted' : s.store.fUseCrypto = true := by
    rw [hs.store]
    exact hcrypted
  apply (writeCryptedKey_spec s vchCryptedSecret keyMeta hcrypted').imp _ _ s rfl
  · rintro added t ⟨ht, hadded⟩
    exact ⟨hholds.of_store (ht.store.trans hs.store), ht.setWatchOnly.trans hs.setWatchOnly,
      ht.fFileBacked.trans hs.fFileBacked, hadded.trans hfits⟩
  · rintro _ t ⟨ht, hadded⟩
    exact ⟨hholds.of_store (ht.store.trans hs.store), hfits.not.1 hadded⟩

theorem addKeyToStore_spec (w : CWallet) (key : CKey) (hopen : ¬StoreRefuses w) :
    Triple (fun s => s = w) (addKeyToStore E key pubkey)
      (fun added w' => Holds w (E.fn.getID pubkey) w' ∧ w'.setWatchOnly = w.setWatchOnly ∧
        w'.fFileBacked = w.fFileBacked ∧
        if w.store.fUseCrypto then added = true ↔ (w.fFileBacked = true → KeyFits E w pubkey)
        else added = true ∧ w'.db = w.db)
      (fun _ w' => Holds w (E.fn.getID pubkey) w' ∧ ¬(w.fFileBacked = true → KeyFits E w pubkey)) := by
  unfold addKeyToStore
  apply Triple.get_bind
  rintro w rfl
  apply Triple.ite_not
  · rintro hplain s rfl
    refine ⟨⟨rfl, haveKey_insert hplain _ _⟩, rfl, rfl, ?_⟩
    rw [if_neg (by simp [hplain])]
    exact ⟨rfl, rfl⟩
  intro hcrypted
  have hlocked : ¬w.store.isLocked true = true := fun h => hopen ⟨hcrypted, .inl h⟩
  have hlength : w.store.vMasterKey.length = 32 := by
    by_contra h
    exact hopen ⟨hcrypted, .inr h⟩
  rw [if_neg hlocked]
  have hsecret : E.fn.encryptSecret w.store.vMasterKey key.vch (E.fn.getHash pubkey) =
      some (E.fn.encrypt w.store.vMasterKey (E.fn.getHash pubkey) key.vch) :=
    if_neg (not_not.2 hlength)
  simp only [hsecret, if_pos hcrypted]
  exact addCryptedKey_spec w _ hcrypted

theorem addKeyToStore_refused (key : CKey) (h : StoreRefuses w) :
    addKeyToStore E key pubkey w = .ok false w := by
  unfold addKeyToStore
  rw [get_bind_apply, if_neg (by simp [h.1])]
  by_cases hlocked : w.store.isLocked true = true
  · rw [if_pos hlocked]
    rfl
  · have hsecret : E.fn.encryptSecret w.store.vMasterKey key.vch (E.fn.getHash pubkey) = none :=
      if_pos (h.2.resolve_left hlocked)
    rw [if_neg hlocked, hsecret]
    rfl

theorem WatchDropped.watchOpens_iff (h : WatchDropped w script w') (hopens : WatchOpens E w script)
    (script' : Bytes) : WatchOpens E w' script' ↔ WatchOpens E w script' := by
  unfold WatchOpens
  rw [h.setWatchOnly, h.fFileBacked, Finset.mem_erase]
  by_cases heq : script' = script
  · subst heq
    exact iff_of_true (fun h => absurd rfl h.1) hopens
  · simp [heq]

theorem addKeyPubKey_spec (w : CWallet) (key : CKey) (pubkey : CPubKey) (hopen : ¬StoreRefuses w) :
    Triple (fun s => s = w) (addKeyPubKey E key pubkey)
      (fun stored w' => Holds w (E.fn.getID pubkey) w' ∧ (stored = true ↔ Storable E w pubkey))
      (fun _ w' => Holds w (E.fn.getID pubkey) w' ∧ ¬Storable E w pubkey) := by
  unfold addKeyPubKey
  apply Triple.bind_throw (addKeyToStore_spec w key hopen)
  · rintro _ s ⟨hholds, hfits⟩
    exact ⟨hholds, fun h => hfits h.2.2.2⟩
  rintro (_ | _) s ⟨hholds, hwatch, hfile, hadded⟩
  · cases hcrypto : w.store.fUseCrypto with
    | false => simp [hcrypto] at hadded
    | true =>
      rw [if_pos hcrypto] at hadded
      exact ⟨hholds, iff_of_false Bool.false_ne_true fun h => Bool.false_ne_true (hadded.2 h.2.2.2)⟩
  have hopens : ∀ script, WatchOpens E s script ↔ WatchOpens E w script := by
    intro script
    unfold WatchOpens
    rw [hwatch, hfile]
  -- From here on a failure is one of the file: the store has the key.
  apply Triple.bind_throw (dropWatchOnly_spec s _) _ _ s rfl
  · rintro _ t ⟨hclosed, ht⟩
    exact ⟨hholds.of_store ht, fun h => hclosed ((hopens _).2 h.2.1)⟩
  rintro _ s₁ ⟨hopens₁, hs₁⟩
  apply Triple.bind_throw (dropWatchOnly_spec s₁ _) _ _ s₁ rfl
  · rintro _ t ⟨hclosed, ht⟩
    exact ⟨hholds.of_store (ht.trans hs₁.store),
      fun h => hclosed ((hs₁.watchOpens_iff hopens₁ _).2 ((hopens _).2 h.2.2.1))⟩
  rintro _ s₂ ⟨hopens₂, hs₂⟩
  have hstore : s₂.store = s.store := hs₂.store.trans hs₁.store
  have hfile₂ : s₂.fFileBacked = w.fFileBacked := (hs₂.fFileBacked.trans hs₁.fFileBacked).trans hfile
  have hstorable : Storable E w pubkey ↔ (w.fFileBacked = true → KeyFits E w pubkey) :=
    ⟨fun h => h.2.2.2, fun h => ⟨hopen, (hopens _).1 hopens₁,
      (hopens _).1 ((hs₁.watchOpens_iff hopens₁ _).1 hopens₂), h⟩⟩
  rw [hstorable]
  apply Triple.get_bind (P := fun t => t = s₂) _ s₂ rfl
  rintro s₂ rfl
  rw [hfile₂, hstore, hholds.1]
  apply Triple.ite_not
  · intro hno
    apply Triple.pure
    rintro t rfl
    exact ⟨hholds.of_store hstore, iff_of_true rfl fun h => absurd h (by simpa using hno)⟩
  intro hyes
  apply Triple.ite_not
  · intro hplain
    rw [if_neg (by simp [hplain])] at hadded
    apply Triple.bind (keyMetadata_spec _ s₂)
    rintro keyMeta s₃ ⟨hs₃, hdb⟩
    have hstore₃ : s₃.store = s.store := hs₃.store.trans hstore
    have hcrypto : s₃.store.fUseCrypto = w.store.fUseCrypto := by rw [hstore₃, hholds.1]
    have hfits : KeyFits E s₃ pubkey ↔ (w.fFileBacked = true → KeyFits E w pubkey) := by
      rw [keyFits_congr (w := w) hcrypto]
      · exact ⟨fun h _ => h, fun h => h hyes⟩
      · intro record hrecord
        rw [hdb, hs₂.db record hrecord, hs₁.db record hrecord, hadded.2]
    apply (writeKey_spec s₃ _ keyMeta (hcrypto.trans hplain)).imp _ _ s₃ rfl
    · rintro stored t ⟨ht, hstored⟩
      exact ⟨hholds.of_store (ht.trans hstore₃), hstored.trans hfits⟩
    · rintro _ t ⟨ht, hstored⟩
      exact ⟨hholds.of_store (ht.trans hstore₃), hfits.not.1 hstored⟩
  · intro hcrypted
    rw [if_pos hcrypted] at hadded
    apply Triple.pure
    rintro t rfl
    exact ⟨hholds.of_store hstore, hadded⟩

theorem addKeyPubKey_refused (key : CKey) (h : StoreRefuses w) :
    addKeyPubKey E key pubkey w = .ok false w := by
  unfold addKeyPubKey
  rw [bind_apply_ok (addKeyToStore_refused key h)]
  rfl

end

section

variable {E} {w : CWallet} {address : CKeyID}

theorem kept_withCreateTime_iff (hsame : w'.mapKeyMetadata = w.mapKeyMetadata) :
    Kept w (w'.withCreateTime address 1) ↔ Kept w w' ∧ CreateTimeSettled w address := by
  have hentry : (w'.withCreateTime address 1).mapKeyMetadata = update w.mapKeyMetadata address
      (some { (w.mapKeyMetadata address).getD .new with nCreateTime := 1 }) := by
    rw [← hsame]
    rfl
  constructor
  · intro h
    refine ⟨{ h with mapKeyMetadata := hsame }, ?_⟩
    have htime := congrFun (hentry.symm.trans h.mapKeyMetadata) address
    rw [update_self] at htime
    rw [CreateTimeSettled, ← htime]
    rfl
  · rintro ⟨h, hsettled⟩
    refine { h with mapKeyMetadata := ?_ }
    obtain ⟨keyMeta, hkeyMeta, htime⟩ := Option.map_eq_some_iff.1 hsettled
    rw [hentry, hkeyMeta, Option.getD_some, ← htime, ← hkeyMeta, update_eq_self]

theorem storable_congr (h : BookOnly w w') (address : CKeyID) (nTime : Int) (pubkey : CPubKey) :
    Storable E (w'.withCreateTime address nTime) pubkey ↔ Storable E w pubkey := by
  simp [Storable, StoreRefuses, WatchOpens, KeyFits, CWallet.withCreateTime, h.store, h.setWatchOnly, h.fFileBacked, h.keymeta, h.key, h.ckey]

def Keeps (w : CWallet) : EStateM.Result Thrown CWallet (Bool × Bytes) → Prop
  | .ok (ret, _) w' => ret = false → Kept w w'
  | .error _ w' => Kept w w'

theorem rejected_kept_iff (w : CWallet) (params : Bytes) :
    (∀ w', Rejected E w params w' → Kept w w') ↔ Keeps w (importprivkey E params w) := by
  constructor
  · intro h
    cases hrun : importprivkey E params w with
    | ok r w' =>
      obtain ⟨ret, addr⟩ := r
      rintro rfl
      exact h w' (.returned hrun)
    | error e w' => exact h w' (.thrown hrun)
  · rintro h w' (hrun | hrun) <;> rw [hrun] at h
    · exact h rfl
    · exact h

theorem keeps_addKeyPubKey_iff (hbook : BookOnly w w₁)
    (hnew : haveKey w.store (E.fn.getID pubkey) = false) :
    Keeps w ((do
        if !(← addKeyPubKey E key pubkey) then
          throw (.jsonRPCError rpcWalletError "Error adding key to wallet")
        else
          modify fun w => { w with nTimeFirstKey := 1 }
          pure (true, addr) : ImportM (Bool × Bytes)) (w₁.withCreateTime (E.fn.getID pubkey) 1)) ↔
      Storable E w pubkey ∨
        Kept w w₁ ∧ CreateTimeSettled w (E.fn.getID pubkey) ∧ StoreRefuses w := by
  have hstorable := storable_congr (E := E) hbook (E.fn.getID pubkey) 1 pubkey
  have hrefuses : StoreRefuses (w₁.withCreateTime (E.fn.getID pubkey) 1) ↔ StoreRefuses w := by
    simp only [StoreRefuses, CWallet.withCreateTime, hbook.store]
  by_cases hrefused : StoreRefuses w
  · rw [bind_apply_ok (addKeyPubKey_refused key (hrefuses.2 hrefused))]
    have hnot : ¬Storable E w pubkey := fun h => h.1 hrefused
    simp only [hrefused, hnot, and_true, false_or]
    exact kept_withCreateTime_iff hbook.mapKeyMetadata
  · have hspec := addKeyPubKey_spec (E := E) _ key pubkey (hrefuses.not.2 hrefused) _ rfl
    have hlost : ∀ w', Holds (w₁.withCreateTime (E.fn.getID pubkey) 1) (E.fn.getID pubkey) w' → ¬Kept w w' := by
      intro w' h
      have hholds : Holds w (E.fn.getID pubkey) w' :=
        ⟨h.1.trans (congrArg CCryptoKeyStore.fUseCrypto hbook.store), h.2⟩
      exact hholds.not_kept hnew
    simp only [hrefused, and_false, or_false]
    cases hrun : addKeyPubKey E key pubkey (w₁.withCreateTime (E.fn.getID pubkey) 1) with
    | error e w' =>
      rw [hrun] at hspec
      rw [bind_apply_error hrun]
      exact iff_of_false (hlost w' hspec.1) (hstorable.not.1 hspec.2)
    | ok stored w' =>
      rw [hrun] at hspec
      rw [bind_apply_ok hrun, ← hstorable, ← hspec.2]
      cases stored with
      | false => exact iff_of_false (hlost w' hspec.1) Bool.false_ne_true
      | true => exact iff_of_true nofun rfl

/-- Exactly when a rejected import leaves the wallet as it was. A rejection after the address book
was written is harmless only if nothing in it had to be changed. -/
theorem rejected_import_keeps_iff (E : Env) (w : CWallet) (params : Bytes) :
    (∀ w', Rejected E w params w' → Kept w w') ↔
      ∀ key, E.setString params = some (some key) → E.fn.verifyPubKey key (E.fn.getPubKey key) = true →
        let pubkey := E.fn.getPubKey key
        let vchAddress := E.fn.getID pubkey
        BookWritten E w vchAddress ∧ haveKey w.store vchAddress = false ∧ Storable E w pubkey ∨
          BookSettled E w vchAddress ∧ (BookWritten E w vchAddress → haveKey w.store vchAddress = false →
            CreateTimeSettled w vchAddress ∧ StoreRefuses w) := by
  rw [rejected_kept_iff]
  unfold importprivkey
  rcases hset : E.setString params with _ | _ | key
  · exact iff_of_true (Kept.refl w) nofun
  · exact iff_of_true (Kept.refl w) nofun
  simp only [Option.some.injEq, forall_eq']
  by_cases hverify : E.fn.verifyPubKey key (E.fn.getPubKey key) = true
  swap
  · rw [if_pos (by simp [hverify])]
    exact iff_of_true (Kept.refl w) fun h => absurd h hverify
  rw [if_neg (by simp [hverify])]
  simp only [hverify, true_implies]
  have hspec := setAddressBook_spec (E := E) w (E.fn.getID (E.fn.getPubKey key)) w rfl
  cases hrun : setAddressBook E (E.fn.getID (E.fn.getPubKey key)) [] receive w with
  | error e w₁ =>
    rw [hrun] at hspec
    obtain ⟨hclosed, -, hkept⟩ := hspec
    rw [discard_bind_apply_error hrun]
    simp only [hclosed, false_and, false_or, false_implies, and_true]
    exact hkept
  | ok written w₁ =>
    rw [hrun] at hspec
    obtain ⟨hopened, hbook, hkept⟩ := hspec
    rw [discard_bind_apply_ok hrun, get_bind_apply, hbook.store]
    simp only [hopened, true_and, true_implies]
    cases hnew : haveKey w.store (E.fn.getID (E.fn.getPubKey key)) with
    | true =>
      rw [if_pos rfl]
      simp only [Bool.true_eq_false, false_and, false_or, false_implies, and_true]
      exact (forall_prop_of_true rfl).trans hkept
    | false =>
      rw [if_neg (by decide), modify_bind_apply, ← hkept]
      simp only [true_and, true_implies]
      exact keeps_addKeyPubKey_iff hbook hnew

end

def sampleEnv : Env where
  fn := tableCrypt
  setString := DumpText.secretSetString PrivKey.seckeyVerify sampleProgram
  getPrivKey := oneKey.fn.getPrivKey
  hash bytes := sampleHash bytes
  toString := (DumpText.textFunctions oneKey.fn sampleProgram).addressToString
  getScriptForDestination keyid := [0x76, 0xa9, 20] ++ keyid ++ [0x88, 0xac]
  getScriptForRawPubKey pubkey := UInt8.ofNat pubkey.length :: pubkey ++ [0xac]
  opens _ := true
  puts _ := true
  dels _ := true

def sampleAddress : Bytes := "UYfHWYACeLNLknfstJkzoNvUvQxhMqow4w".toUTF8.toList

def labelledWallet : CWallet where
  store := { CCryptoKeyStore.new with mapKeys := AList.singleton (sampleID 1) (sampleKey 1) }
  setWatchOnly := ∅
  mapKeyMetadata := update (fun _ => none) (sampleID 1) (some ⟨1, 1⟩)
  mapAddressBook := update (fun _ => none) (sampleID 1) (some ⟨[112, 97, 121], receive⟩)
  nTimeFirstKey := 1
  fFileBacked := true
  db := update (update (fun _ => none) (.name sampleAddress) (some (.text [112, 97, 121])))
    (.purpose sampleAddress) (some (.text receive))

def lockedWallet : CWallet where
  store := { CCryptoKeyStore.new with fUseCrypto := true }
  setWatchOnly := ∅
  mapKeyMetadata _ := none
  mapAddressBook _ := none
  nTimeFirstKey := 0
  fFileBacked := true
  db _ := none

/-- Importing a known key takes away its label, and a locked wallet gets an address in its book
without a key for it. -/
theorem rejected_imports_leave_traces :
    (∃ w', importprivkey sampleEnv sampleSecret labelledWallet = .ok (false, sampleAddress) w' ∧
      labelledWallet.mapAddressBook (sampleID 1) = some ⟨[112, 97, 121], receive⟩ ∧
      w'.mapAddressBook (sampleID 1) = some ⟨[], receive⟩ ∧
      labelledWallet.db (.name sampleAddress) = some (.text [112, 97, 121]) ∧
      w'.db (.name sampleAddress) = some (.text []) ∧ ¬Kept labelledWallet w') ∧
    ∃ w', importprivkey sampleEnv sampleSecret lockedWallet =
        .error (.jsonRPCError rpcWalletError "Error adding key to wallet") w' ∧
      w'.mapAddressBook (sampleID 1) = some ⟨[], receive⟩ ∧
      w'.mapKeyMetadata (sampleID 1) = some ⟨1, 1⟩ ∧
      w'.db (.purpose sampleAddress) = some (.text receive) ∧
      haveKey w'.store (sampleID 1) = false ∧ ¬Kept lockedWallet w' := by
  constructor
  · have hrun : (match importprivkey sampleEnv sampleSecret labelledWallet with
        | .ok r w' => decide (r = (false, sampleAddress) ∧
            w'.mapAddressBook (sampleID 1) = some ⟨[], receive⟩ ∧
            w'.db (.name sampleAddress) = some (.text []))
        | .error _ _ => false) = true := by decide +kernel
    have hname : labelledWallet.db (.name sampleAddress) = some (.text [112, 97, 121]) := by
      decide +kernel
    cases hcall : importprivkey sampleEnv sampleSecret labelledWallet with
    | error e w' =>
      rw [hcall] at hrun
      cases hrun
    | ok r w' =>
      rw [hcall] at hrun
      obtain ⟨rfl, hbook, hdb⟩ := of_decide_eq_true hrun
      refine ⟨w', rfl, by decide +kernel, hbook, hname, hdb, fun h => ?_⟩
      have hsame := h.db (.name sampleAddress) fun _ heq => by cases heq
      rw [hdb, hname] at hsame
      cases hsame
  · have hrun : (match importprivkey sampleEnv sampleSecret lockedWallet with
        | .ok _ _ => false
        | .error e w' => decide (e = .jsonRPCError rpcWalletError "Error adding key to wallet" ∧
            w'.mapAddressBook (sampleID 1) = some ⟨[], receive⟩ ∧
            w'.mapKeyMetadata (sampleID 1) = some ⟨1, 1⟩ ∧
            w'.db (.purpose sampleAddress) = some (.text receive) ∧
            haveKey w'.store (sampleID 1) = false)) = true := by decide +kernel
    cases hcall : importprivkey sampleEnv sampleSecret lockedWallet with
    | ok r w' =>
      rw [hcall] at hrun
      cases hrun
    | error e w' =>
      rw [hcall] at hrun
      obtain ⟨rfl, hbook, hmeta, hdb, hkey⟩ := of_decide_eq_true hrun
      refine ⟨w', rfl, hbook, hmeta, hdb, hkey, fun h => ?_⟩
      have hsame := h.db (.purpose sampleAddress) fun _ heq => by cases heq
      rw [hdb] at hsame
      cases hsame

end Utsuite.ImportKey
