import Utsuite.CurveKeys
import Utsuite.Transitions

namespace Utsuite.CryptoKeyStore

open ByteWords CurveKeys Transitions List Function
open Wallet (CKey CPubKey CKeyID lookup_inserts lookup_inserts_of_ne)

/-- Keys and AES-256-CBC as the key store uses them. `verifies` tells if a signature of the key is
accepted for the public key. -/
structure Crypt where
  getPubKey : CKey → CPubKey
  getID : CPubKey → CKeyID
  getHash : CPubKey → Bytes
  check : Bytes → Bool
  verifies : CKey → CPubKey → Bool
  encrypt : Bytes → Bytes → Bytes → Bytes
  decrypt : Bytes → Bytes → Bytes → Option Bytes

namespace Crypt

variable (c : Crypt)

def Valid (key : CKey) : Prop := key.vch.length = 32 ∧ c.check key.vch = true

def isCompressed (vchPubKey : CPubKey) : Bool := vchPubKey.length == 33

def set (vchSecret : Bytes) (fCompressed : Bool) : Option CKey :=
  if vchSecret.length ≠ 32 then none
  else if c.check vchSecret then some ⟨fCompressed, vchSecret⟩
  else none

def verifyPubKey (key : CKey) (vchPubKey : CPubKey) : Bool :=
  if isCompressed vchPubKey ≠ key.fCompressed then false else c.verifies key vchPubKey

def encryptSecret (vMasterKey vchPlaintext nIV : Bytes) : Option Bytes :=
  if vMasterKey.length ≠ 32 then none else some (c.encrypt vMasterKey nIV vchPlaintext)

def decryptSecret (vMasterKey vchCiphertext nIV : Bytes) : Option Bytes :=
  if vMasterKey.length ≠ 32 then none else c.decrypt vMasterKey nIV vchCiphertext

/-- An invalid key cannot sign, so `VerifyPubKey` fails for it and nothing is decrypted. -/
def decryptKey (vMasterKey vchCryptedSecret : Bytes) (vchPubKey : CPubKey) : Option CKey := do
  let vchSecret ← c.decryptSecret vMasterKey vchCryptedSecret (c.getHash vchPubKey)
  if vchSecret.length ≠ 32 then none
  else
    let key ← c.set vchSecret (isCompressed vchPubKey)
    if c.verifyPubKey key vchPubKey then some key else none

/-- Decryption undoes encryption under the same master key, and never gives the secret back under
another one. -/
structure Lawful : Prop where
  decrypt_encrypt : ∀ vMasterKey nIV secret, vMasterKey.length = 32 →
    c.decrypt vMasterKey nIV (c.encrypt vMasterKey nIV secret) = some secret
  decrypt_other : ∀ vMasterKey vMasterKey' nIV secret, vMasterKey.length = 32 → vMasterKey'.length = 32 →
    vMasterKey' ≠ vMasterKey → c.decrypt vMasterKey' nIV (c.encrypt vMasterKey nIV secret) ≠ some secret
  verifyPubKey_iff : ∀ key key', c.Valid key → c.Valid key' →
    (c.verifyPubKey key' (c.getPubKey key) = true ↔ key' = key)

end Crypt

structure CCryptoKeyStore where
  mapKeys : AList fun _ : CKeyID => CKey
  mapCryptedKeys : AList fun _ : CKeyID => CPubKey × Bytes
  vMasterKey : Bytes
  fUseCrypto : Bool
  fDecryptionThoroughlyChecked : Bool
  fOnlyMixingAllowed : Bool

def CCryptoKeyStore.new : CCryptoKeyStore where
  mapKeys := ∅
  mapCryptedKeys := ∅
  vMasterKey := []
  fUseCrypto := false
  fDecryptionThoroughlyChecked := false
  fOnlyMixingAllowed := false

def inOrder {κ β : Type} [DecidableEq κ] [LE κ] [DecidableLE κ] (m : AList fun _ : κ => β) : List (κ × β) :=
  (m.entries.mergeSort fun a b => decide (a.1 ≤ b.1)).map fun e => (e.1, e.2)

namespace CCryptoKeyStore

def isLocked (s : CCryptoKeyStore) (fForMixing : Bool) : Bool :=
  if !s.fUseCrypto then false
  else if !fForMixing && s.fOnlyMixingAllowed then true
  else s.vMasterKey.isEmpty

def setCrypted (s : CCryptoKeyStore) : Bool × CCryptoKeyStore :=
  if s.fUseCrypto then (true, s)
  else if !s.mapKeys.entries.isEmpty then (false, s)
  else (true, { s with fUseCrypto := true })

def lock (s : CCryptoKeyStore) (fAllowMixing : Bool) : Bool × CCryptoKeyStore :=
  match s.setCrypted with
  | (false, s) => (false, s)
  | (true, s) =>
    let s := if !fAllowMixing then { s with vMasterKey := [] } else s
    (true, { s with fOnlyMixingAllowed := fAllowMixing })

variable (c : Crypt)

/-- The loop of `Unlock` over the encrypted keys. It returns `keyPass` and `keyFail` as they are at
its end. -/
def tryKeys (vMasterKeyIn : Bytes) (fDecryptionThoroughlyChecked : Bool) :
    List (CKeyID × CPubKey × Bytes) → Bool → Bool × Bool
  | [], keyPass => (keyPass, false)
  | (_, vchPubKey, vchCryptedSecret) :: keys, keyPass =>
    match c.decryptKey vMasterKeyIn vchCryptedSecret vchPubKey with
    | none => (keyPass, true)
    | some _ =>
      if fDecryptionThoroughlyChecked then (true, false)
      else tryKeys vMasterKeyIn fDecryptionThoroughlyChecked keys true

def unlock (s : CCryptoKeyStore) (vMasterKeyIn : Bytes) (fForMixingOnly : Bool) :
    Option (Bool × CCryptoKeyStore) :=
  match s.setCrypted with
  | (false, s) => some (false, s)
  | (true, s) =>
    let (keyPass, keyFail) :=
      tryKeys c vMasterKeyIn s.fDecryptionThoroughlyChecked (inOrder s.mapCryptedKeys) false
    if keyPass && keyFail then none
    else if keyFail || !keyPass then some (false, s)
    else some (true, { s with
      vMasterKey := vMasterKeyIn
      fDecryptionThoroughlyChecked := true
      fOnlyMixingAllowed := fForMixingOnly })

def addCryptedKey (s : CCryptoKeyStore) (vchPubKey : CPubKey) (vchCryptedSecret : Bytes) :
    Bool × CCryptoKeyStore :=
  match s.setCrypted with
  | (false, s) => (false, s)
  | (true, s) =>
    (true, { s with
      mapCryptedKeys := s.mapCryptedKeys.insert (c.getID vchPubKey) (vchPubKey, vchCryptedSecret) })

def addKeyPubKey (s : CCryptoKeyStore) (key : CKey) (pubkey : CPubKey) : Bool × CCryptoKeyStore :=
  if !s.fUseCrypto then
    (true, { s with mapKeys := s.mapKeys.insert (c.getID pubkey) key })
  else if s.isLocked true then (false, s)
  else
    match c.encryptSecret s.vMasterKey key.vch (c.getHash pubkey) with
    | none => (false, s)
    | some vchCryptedSecret => s.addCryptedKey c pubkey vchCryptedSecret

def getKey (s : CCryptoKeyStore) (address : CKeyID) : Option CKey :=
  if !s.fUseCrypto then s.mapKeys.lookup address
  else do
    let (vchPubKey, vchCryptedSecret) ← s.mapCryptedKeys.lookup address
    c.decryptKey s.vMasterKey vchCryptedSecret vchPubKey

/-- Encrypts the keys one after the other. A failure leaves those that were encrypted so far. -/
def encryptEach (vMasterKeyIn : Bytes) : List CKey → CCryptoKeyStore → Bool × CCryptoKeyStore
  | [], s => (true, s)
  | key :: keys, s =>
    let vchPubKey := c.getPubKey key
    match c.encryptSecret vMasterKeyIn key.vch (c.getHash vchPubKey) with
    | none => (false, s)
    | some vchCryptedSecret =>
      match s.addCryptedKey c vchPubKey vchCryptedSecret with
      | (false, s) => (false, s)
      | (true, s) => encryptEach vMasterKeyIn keys s

def encryptKeys (s : CCryptoKeyStore) (vMasterKeyIn : Bytes) : Bool × CCryptoKeyStore :=
  if !s.mapCryptedKeys.entries.isEmpty || s.fUseCrypto then (false, s)
  else
    match encryptEach c vMasterKeyIn ((inOrder s.mapKeys).map Prod.snd) { s with fUseCrypto := true } with
    | (false, s) => (false, s)
    | (true, s) => (true, { s with mapKeys := ∅ })

end CCryptoKeyStore

inductive Event
  | addKeyPubKey (key : CKey) (ret : Bool)
  | encryptKeys (vMasterKeyIn : Bytes) (ret : Bool)
  | lock (fAllowMixing ret : Bool)
  | unlock (vMasterKeyIn : Bytes) (fForMixingOnly ret : Bool)
  | getKey (address : CKeyID) (ret : Option CKey)

variable (c : Crypt)

def Step (s : CCryptoKeyStore) (e : Event) (s' : CCryptoKeyStore) : Prop :=
  match e with
  | .addKeyPubKey key ret => c.Valid key ∧ s.addKeyPubKey c key (c.getPubKey key) = (ret, s')
  | .encryptKeys vMasterKeyIn ret => vMasterKeyIn.length = 32 ∧ s.encryptKeys c vMasterKeyIn = (ret, s')
  | .lock fAllowMixing ret => s.lock fAllowMixing = (ret, s')
  | .unlock vMasterKeyIn fForMixingOnly ret => s.unlock c vMasterKeyIn fForMixingOnly = some (ret, s')
  | .getKey address ret => s.getKey c address = ret ∧ s' = s

def keyStore : System CCryptoKeyStore Event where
  start := {.new}
  next := Step c

/-- What the store is for: the keys by address, and the master key that they are encrypted under. -/
structure Vault where
  keys : CKeyID → Option CKey
  masterKey : Option Bytes

def Vault.record (v : Vault) : Event → Vault
  | .addKeyPubKey key true =>
    { v with keys := update v.keys (c.getID (c.getPubKey key)) (some key) }
  | .encryptKeys vMasterKeyIn true => { v with masterKey := some vMasterKeyIn }
  | _ => v

def vault (events : List Event) : Vault := events.foldl (Vault.record c) ⟨fun _ => none, none⟩

theorem vault_snoc (events : List Event) (e : Event) :
    vault c (events ++ [e]) = (vault c events).record c e := by
  rw [vault, foldl_append]
  rfl

section

variable {κ β : Type} [DecidableEq κ] [LE κ] [DecidableLE κ]

theorem mem_inOrder {m : AList fun _ : κ => β} {a : κ} {b : β} :
    (a, b) ∈ inOrder m ↔ m.lookup a = some b := by
  rw [← Option.mem_def, AList.mem_lookup_iff, inOrder, mem_map]
  constructor
  · rintro ⟨⟨a', b'⟩, hmem, heq⟩
    obtain ⟨rfl, rfl⟩ := Prod.mk.inj heq
    exact mem_mergeSort.mp hmem
  · intro hmem
    exact ⟨_, mem_mergeSort.mpr hmem, rfl⟩

theorem inOrder_singleton (a : κ) (b : β) : inOrder (AList.insert a b ∅) = [(a, b)] := by
  have hentries : (AList.insert a b (∅ : AList fun _ : κ => β)).entries = [⟨a, b⟩] := rfl
  rw [inOrder, hentries, mergeSort_singleton]
  rfl

end

def Crypt.entry (vMasterKey : Bytes) (key : CKey) : CPubKey × Bytes :=
  (c.getPubKey key, c.encrypt vMasterKey (c.getHash (c.getPubKey key)) key.vch)

namespace Crypt

variable {c} (hc : c.Lawful)
include hc

theorem Lawful.isCompressed_getPubKey (hkey : c.Valid key) :
    isCompressed (c.getPubKey key) = key.fCompressed := by
  have hverify := (hc.verifyPubKey_iff key key hkey hkey).mpr rfl
  unfold verifyPubKey at hverify
  split_ifs at hverify with h
  exact not_not.mp h

theorem Lawful.decryptKey_entry (hsize : vMasterKey.length = 32) (hkey : c.Valid key) :
    c.decryptKey vMasterKey (c.entry vMasterKey key).2 (c.entry vMasterKey key).1 = some key := by
  have hverify := (hc.verifyPubKey_iff key key hkey hkey).mpr rfl
  have hset : c.set key.vch key.fCompressed = some key := by simp [set, hkey.1, hkey.2]
  simp [decryptKey, decryptSecret, entry, hsize, hc.decrypt_encrypt _ _ _ hsize, hkey.1,
    hc.isCompressed_getPubKey hkey, hset, hverify]

theorem Lawful.decryptKey_other (hsize : vMasterKey.length = 32) (hne : vMasterKey' ≠ vMasterKey)
    (hkey : c.Valid key) :
    c.decryptKey vMasterKey' (c.entry vMasterKey key).2 (c.entry vMasterKey key).1 = none := by
  by_cases hsize' : vMasterKey'.length = 32
  · have hother := hc.decrypt_other vMasterKey vMasterKey' (c.getHash (c.getPubKey key)) key.vch hsize hsize' hne
    simp only [entry]
    simp only [decryptKey, decryptSecret, hsize', ne_eq, not_true_eq_false, if_false]
    cases hdec : c.decrypt vMasterKey' (c.getHash (c.getPubKey key))
        (c.encrypt vMasterKey (c.getHash (c.getPubKey key)) key.vch) with
    | none => rfl
    | some vchSecret =>
      simp only [Option.bind_eq_bind, Option.bind_some, ite_eq_left_iff, not_not]
      intro hlen
      by_cases hcheck : c.check vchSecret = true
      · have hset : c.set vchSecret (isCompressed (c.getPubKey key)) =
            some ⟨isCompressed (c.getPubKey key), vchSecret⟩ := by simp [set, hlen, hcheck]
        rw [hset, Option.bind_some, if_neg]
        intro hverify
        have heq := (hc.verifyPubKey_iff key _ hkey ⟨hlen, hcheck⟩).mp hverify
        rw [hdec, ← heq] at hother
        exact hother rfl
      · simp [set, hlen, hcheck]
  · simp [decryptKey, decryptSecret, hsize']

end Crypt

namespace CCryptoKeyStore

variable {c}

theorem setCrypted_of_crypted {s : CCryptoKeyStore} (h : s.fUseCrypto = true) : s.setCrypted = (true, s) := by
  simp [setCrypted, h]

theorem setCrypted_cases (s : CCryptoKeyStore) :
    s.setCrypted = (true, s) ∧ s.fUseCrypto = true ∨
    s.setCrypted = (false, s) ∧ s.fUseCrypto = false ∨
    s.setCrypted = (true, { s with fUseCrypto := true }) ∧ s.fUseCrypto = false ∧ s.mapKeys = ∅ := by
  unfold setCrypted
  cases hcrypto : s.fUseCrypto with
  | true => simp
  | false =>
    by_cases hempty : s.mapKeys.entries = []
    · have hkeys : s.mapKeys = ∅ := AList.ext hempty
      simp [hkeys]
    · simp [hempty]

theorem encryptEach_eq {vMasterKey : Bytes} (hsize : vMasterKey.length = 32) (keys : List CKey)
    {s : CCryptoKeyStore} (hs : s.fUseCrypto = true) :
    encryptEach c vMasterKey keys s = (true, { s with
      mapCryptedKeys := keys.foldl (fun m key =>
        m.insert (c.getID (c.getPubKey key)) (c.entry vMasterKey key)) s.mapCryptedKeys }) := by
  induction keys generalizing s with
  | nil => rfl
  | cons key keys ih =>
    simp only [encryptEach, Crypt.encryptSecret, hsize, ne_eq, not_true_eq_false, if_false, addCryptedKey,
      setCrypted_of_crypted hs]
    rw [ih (by exact hs)]
    rfl

section

variable (hc : c.Lawful) {vMasterKey : Bytes} (hsize : vMasterKey.length = 32)
include hc hsize

theorem tryKeys_right (checked : Bool) {keys : List (CKeyID × CPubKey × Bytes)}
    (h : ∀ e ∈ keys, ∃ key, c.Valid key ∧ e.2 = c.entry vMasterKey key) (keyPass : Bool) :
    tryKeys c vMasterKey checked keys keyPass = (keyPass || !keys.isEmpty, false) := by
  induction keys generalizing keyPass with
  | nil => simp [tryKeys]
  | cons e keys ih =>
    obtain ⟨⟨key, hkey, he⟩, hkeys⟩ := forall_mem_cons.mp h
    obtain ⟨address, vchPubKey, vchCryptedSecret⟩ := e
    obtain ⟨rfl, rfl⟩ := Prod.mk.inj he
    have hdec := hc.decryptKey_entry hsize hkey
    simp only [Crypt.entry] at hdec
    simp only [tryKeys, hdec]
    cases checked with
    | true => simp
    | false => simp [ih hkeys]

theorem tryKeys_wrong (checked : Bool) {vMasterKey' : Bytes} (hne : vMasterKey' ≠ vMasterKey)
    {keys : List (CKeyID × CPubKey × Bytes)}
    (h : ∀ e ∈ keys, ∃ key, c.Valid key ∧ e.2 = c.entry vMasterKey key) (keyPass : Bool) :
    tryKeys c vMasterKey' checked keys keyPass = (keyPass, !keys.isEmpty) := by
  cases keys with
  | nil => rfl
  | cons e keys =>
    obtain ⟨⟨key, hkey, he⟩, -⟩ := forall_mem_cons.mp h
    obtain ⟨address, vchPubKey, vchCryptedSecret⟩ := e
    obtain ⟨rfl, rfl⟩ := Prod.mk.inj he
    have hdec := hc.decryptKey_other hsize hne hkey
    simp only [Crypt.entry] at hdec
    simp [tryKeys, hdec]

end

end CCryptoKeyStore

structure Represents (v : Vault) (s : CCryptoKeyStore) : Prop where
  valid : ∀ address key, v.keys address = some key → c.Valid key ∧ c.getID (c.getPubKey key) = address
  size : ∀ vMasterKey, v.masterKey = some vMasterKey → vMasterKey.length = 32
  plain : s.fUseCrypto = false → s.vMasterKey = [] ∧ s.mapCryptedKeys = ∅ ∧ v.masterKey = none ∧
    ∀ address, s.mapKeys.lookup address = v.keys address
  crypted : s.fUseCrypto = true → s.mapKeys = ∅ ∧ (s.vMasterKey = [] ∨ v.masterKey = some s.vMasterKey) ∧
    (v.masterKey = none → ∀ address, v.keys address = none) ∧
    ∀ address, s.mapCryptedKeys.lookup address =
      v.masterKey.bind fun vMasterKey => (v.keys address).map (c.entry vMasterKey)

namespace Represents

open CCryptoKeyStore

variable {c} {v : Vault} {s : CCryptoKeyStore}

theorem setCrypted (h : Represents c v s) : Represents c v s.setCrypted.2 := by
  rcases s.setCrypted_cases with ⟨heq, -⟩ | ⟨heq, -⟩ | ⟨heq, hcrypto, hkeys⟩ <;> rw [heq]
  · exact h
  · exact h
  · obtain ⟨hmaster, hcrypted, hnone, hlookup⟩ := h.plain hcrypto
    have hempty : ∀ address, v.keys address = none := by
      intro address
      rw [← hlookup, hkeys]
      rfl
    refine ⟨h.valid, h.size, nofun, fun _ => ⟨hkeys, .inl hmaster, fun _ => hempty, ?_⟩⟩
    intro address
    simp only [hcrypted, hnone]
    rfl

theorem lock (h : Represents c v s) (fAllowMixing : Bool) : Represents c v (s.lock fAllowMixing).2 := by
  have hset := h.setCrypted
  unfold CCryptoKeyStore.lock
  generalize s.setCrypted = r at hset
  obtain ⟨ret, s'⟩ := r
  cases ret with
  | false => exact hset
  | true =>
    cases fAllowMixing with
    | true => exact ⟨hset.valid, hset.size, hset.plain, hset.crypted⟩
    | false =>
      refine ⟨hset.valid, hset.size, fun hf => ?_, fun hf => ?_⟩
      · obtain ⟨-, hplain⟩ := hset.plain hf
        exact ⟨rfl, hplain⟩
      · obtain ⟨hkeys, -, hcrypted⟩ := hset.crypted hf
        exact ⟨hkeys, .inl rfl, hcrypted⟩

theorem entries_encrypted (h : Represents c v s) (hs : s.fUseCrypto = true) :
    ∀ e ∈ inOrder s.mapCryptedKeys, ∃ vMasterKey key, v.masterKey = some vMasterKey ∧ c.Valid key ∧
      e.2 = c.entry vMasterKey key := by
  rintro ⟨address, e⟩ hmem
  obtain ⟨-, -, -, hlookup⟩ := h.crypted hs
  have he := mem_inOrder.mp hmem
  rw [hlookup, Option.bind_eq_some_iff] at he
  obtain ⟨vMasterKey, hmaster, he⟩ := he
  obtain ⟨key, hkey, rfl⟩ := Option.map_eq_some_iff.mp he
  exact ⟨vMasterKey, key, hmaster, (h.valid address key hkey).1, rfl⟩

/-- `Unlock` succeeds with the master key of the vault and with no other one, and its assertion
never fails. -/
theorem unlock_cases (hc : c.Lawful) (h : Represents c v s) (vMasterKeyIn : Bytes) (fForMixingOnly : Bool) :
    s.unlock c vMasterKeyIn fForMixingOnly = some (false, s.setCrypted.2) ∨
      v.masterKey = some vMasterKeyIn ∧ s.fUseCrypto = true ∧
        s.unlock c vMasterKeyIn fForMixingOnly = some (true, { s with
          vMasterKey := vMasterKeyIn
          fDecryptionThoroughlyChecked := true
          fOnlyMixingAllowed := fForMixingOnly }) := by
  rcases s.setCrypted_cases with ⟨heq, hcrypto⟩ | ⟨heq, -⟩ | ⟨heq, hcrypto, -⟩
  · have hentries := h.entries_encrypted hcrypto
    simp only [unlock, heq]
    cases hkeys : inOrder s.mapCryptedKeys with
    | nil => exact .inl rfl
    | cons e keys =>
      rw [hkeys] at hentries
      obtain ⟨vMasterKey, -, hmaster, -, -⟩ := hentries e mem_cons_self
      have hall : ∀ e' ∈ e :: keys, ∃ key, c.Valid key ∧ e'.2 = c.entry vMasterKey key := by
        intro e' he'
        obtain ⟨vMasterKey', key, hmaster', hkey, he⟩ := hentries e' he'
        rw [hmaster] at hmaster'
        cases hmaster'
        exact ⟨key, hkey, he⟩
      by_cases hin : vMasterKeyIn = vMasterKey
      · subst hin
        rw [tryKeys_right hc (h.size _ hmaster) _ hall]
        exact .inr ⟨hmaster, hcrypto, rfl⟩
      · rw [tryKeys_wrong hc (h.size _ hmaster) _ hin hall]
        exact .inl rfl
  · simp [unlock, heq]
  · obtain ⟨-, hcrypted, -⟩ := h.plain hcrypto
    simp [unlock, heq, hcrypted, inOrder, tryKeys]

theorem unlock (hc : c.Lawful) (h : Represents c v s)
    (hstep : s.unlock c vMasterKeyIn fForMixingOnly = some (ret, s')) : Represents c v s' := by
  rcases h.unlock_cases hc vMasterKeyIn fForMixingOnly with heq | ⟨hmaster, hcrypto, heq⟩ <;>
    obtain ⟨-, rfl⟩ := Prod.mk.inj (Option.some.inj (heq.symm.trans hstep))
  · exact h.setCrypted
  · obtain ⟨hkeys, -, hcrypted⟩ := h.crypted hcrypto
    exact ⟨h.valid, h.size, fun hf => absurd (hcrypto.symm.trans hf) (by decide),
      fun _ => ⟨hkeys, .inr hmaster, hcrypted⟩⟩

theorem valid_update (h : Represents c v s) (hkey : c.Valid key) (address : CKeyID) (k : CKey)
    (hk : update v.keys (c.getID (c.getPubKey key)) (some key) address = some k) :
    c.Valid k ∧ c.getID (c.getPubKey k) = address := by
  by_cases ha : address = c.getID (c.getPubKey key)
  · subst ha
    rw [update_self] at hk
    cases hk
    exact ⟨hkey, rfl⟩
  · rw [update_of_ne ha] at hk
    exact h.valid address k hk

theorem addKeyPubKey (h : Represents c v s) {key : CKey} (hkey : c.Valid key) {ret : Bool}
    {s' : CCryptoKeyStore} (hstep : s.addKeyPubKey c key (c.getPubKey key) = (ret, s')) :
    Represents c (if ret then { v with keys := update v.keys (c.getID (c.getPubKey key)) (some key) }
      else v) s' := by
  cases hcrypto : s.fUseCrypto with
  | false =>
    simp only [CCryptoKeyStore.addKeyPubKey, hcrypto, Bool.not_false, if_true] at hstep
    obtain ⟨rfl, rfl⟩ := Prod.mk.inj hstep
    obtain ⟨hmaster, hcrypted, hnone, hlookup⟩ := h.plain hcrypto
    rw [if_pos rfl]
    refine ⟨h.valid_update hkey, h.size, fun _ => ⟨hmaster, hcrypted, hnone, fun address => ?_⟩,
      nofun⟩
    by_cases ha : address = c.getID (c.getPubKey key)
    · subst ha
      simp only [update_self]
      exact AList.lookup_insert _
    · simp only [update_of_ne ha]
      exact (AList.lookup_insert_ne ha).trans (hlookup address)
  | true =>
    obtain ⟨hkeys, hmaster, hnone, hlookup⟩ := h.crypted hcrypto
    rcases hmaster with hlocked | hmaster
    · simp only [CCryptoKeyStore.addKeyPubKey, hcrypto, isLocked, hlocked, Bool.not_true, Bool.false_eq_true,
        if_false, Bool.false_and, isEmpty_nil, if_true] at hstep
      obtain ⟨rfl, rfl⟩ := Prod.mk.inj hstep
      exact h
    · have hsize := h.size _ hmaster
      have hopen : s.vMasterKey.isEmpty = false := by
        cases hv : s.vMasterKey with
        | nil => simp [hv] at hsize
        | cons => rfl
      simp only [CCryptoKeyStore.addKeyPubKey, hcrypto, isLocked, hopen, Bool.not_true, Bool.false_eq_true,
        if_false, Bool.false_and, Crypt.encryptSecret, hsize, ne_eq, not_true_eq_false, addCryptedKey,
        setCrypted_of_crypted hcrypto] at hstep
      obtain ⟨rfl, rfl⟩ := Prod.mk.inj hstep
      rw [if_pos rfl]
      refine ⟨h.valid_update hkey, h.size, nofun,
        fun _ => ⟨hkeys, .inr hmaster, fun hf => absurd (hmaster.symm.trans hf) (by simp), fun address => ?_⟩⟩
      simp only [hmaster, Option.bind_some]
      by_cases ha : address = c.getID (c.getPubKey key)
      · subst ha
        rw [update_self]
        exact AList.lookup_insert _
      · rw [update_of_ne ha, AList.lookup_insert_ne ha, hlookup, hmaster]
        rfl

theorem encryptKeys (h : Represents c v s) (hsize : vMasterKeyIn.length = 32)
    (hstep : s.encryptKeys c vMasterKeyIn = (ret, s')) :
    Represents c (if ret then { v with masterKey := some vMasterKeyIn } else v) s' := by
  unfold CCryptoKeyStore.encryptKeys at hstep
  split_ifs at hstep with hguard
  · obtain ⟨rfl, rfl⟩ := Prod.mk.inj hstep
    exact h
  · have hcrypto : s.fUseCrypto = false := by
      simp only [Bool.or_eq_true, not_or, Bool.not_eq_true] at hguard
      exact hguard.2
    obtain ⟨hmaster, hcrypted, hnone, hlookup⟩ := h.plain hcrypto
    rw [encryptEach_eq hsize _ rfl] at hstep
    obtain ⟨rfl, rfl⟩ := Prod.mk.inj hstep
    have hmem {key : CKey} : key ∈ (inOrder s.mapKeys).map Prod.snd ↔ ∃ address, v.keys address = some key := by
      rw [mem_map]
      constructor
      · rintro ⟨⟨address, k⟩, hk, rfl⟩
        exact ⟨address, (hlookup address).symm.trans (mem_inOrder.mp hk)⟩
      · rintro ⟨address, hk⟩
        exact ⟨(address, key), mem_inOrder.mpr ((hlookup address).trans hk), rfl⟩
    refine ⟨h.valid, fun vMasterKey hv => ?_, fun hf => absurd hf.symm Bool.false_ne_true,
      fun _ => ⟨rfl, .inl hmaster, fun hf => ?_, fun address => ?_⟩⟩
    · cases hv
      exact hsize
    · cases hf
    · simp only [if_true, Option.bind_some, hcrypted]
      cases hk : v.keys address with
      | none =>
        rw [lookup_inserts_of_ne]
        · rfl
        · intro key hkey heq
          obtain ⟨a, ha⟩ := hmem.mp hkey
          rw [(h.valid a key ha).2] at heq
          rw [heq, hk] at ha
          cases ha
      | some key =>
        obtain ⟨-, haddr⟩ := h.valid address key hk
        obtain ⟨key', hkey', hid, hlook⟩ := lookup_inserts (f := fun key => c.getID (c.getPubKey key))
          (g := c.entry vMasterKeyIn) _ ⟨key, hmem.mpr ⟨address, hk⟩, haddr⟩ ∅
        obtain ⟨a, ha⟩ := hmem.mp hkey'
        rw [← (h.valid a key' ha).2, hid, hk] at ha
        rw [hlook, Option.some.inj ha]
        rfl

theorem getKey_open (hc : c.Lawful) (h : Represents c v s)
    (hopen : s.fUseCrypto = false ∨ s.vMasterKey ≠ []) (hkey : v.keys address = some key) :
    s.getKey c address = some key := by
  cases hcrypto : s.fUseCrypto with
  | false =>
    obtain ⟨-, -, -, hlookup⟩ := h.plain hcrypto
    simp [getKey, hcrypto, hlookup, hkey]
  | true =>
    obtain ⟨-, hmaster, -, hlookup⟩ := h.crypted hcrypto
    have hne : s.vMasterKey ≠ [] := hopen.resolve_left (by simp [hcrypto])
    have hunder := hmaster.resolve_left hne
    have hdec := hc.decryptKey_entry (h.size _ hunder) (h.valid address key hkey).1
    simp [getKey, hcrypto, hlookup, hunder, hkey, hdec]

theorem getKey_locked (hcrypto : s.fUseCrypto = true) (hlocked : s.vMasterKey = []) (address : CKeyID) :
    s.getKey c address = none := by
  cases hlookup : s.mapCryptedKeys.lookup address <;>
    simp [getKey, hcrypto, hlocked, hlookup, Crypt.decryptKey, Crypt.decryptSecret]

end Represents

variable {c}

theorem run_represents (hc : c.Lawful) (h : Run (keyStore c) .new events s) :
    Represents c (vault c events) s := by
  induction h with
  | nil =>
    exact ⟨nofun, nofun, fun _ => ⟨rfl, rfl, rfl, fun _ => rfl⟩, nofun⟩
  | @snoc s s' events e _ hstep ih =>
    rw [vault_snoc]
    cases e with
    | addKeyPubKey key ret =>
      have hr := ih.addKeyPubKey hstep.1 hstep.2
      cases ret <;> exact hr
    | encryptKeys vMasterKeyIn ret =>
      have hr := ih.encryptKeys hstep.1 hstep.2
      cases ret <;> exact hr
    | lock fAllowMixing ret =>
      have hr := ih.lock fAllowMixing
      rw [show s.lock fAllowMixing = (ret, s') from hstep] at hr
      exact hr
    | unlock vMasterKeyIn fForMixingOnly ret => exact ih.unlock hc hstep
    | getKey address ret =>
      obtain ⟨-, rfl⟩ := hstep
      exact ih

/-- In every run the maps of the store stay as documented. A key comes back while the store is open,
and only the right master key unlocks it. -/
theorem keyStore_faithful (hc : c.Lawful) {events : List Event} {s : CCryptoKeyStore}
    (h : Run (keyStore c) .new events s) :
    (s.fUseCrypto = true → s.mapKeys = ∅) ∧ (s.fUseCrypto = false → s.vMasterKey = []) ∧
      (∀ address key, (vault c events).keys address = some key →
        (s.fUseCrypto = false ∨ s.vMasterKey ≠ [] → s.getKey c address = some key) ∧
        (s.fUseCrypto = true ∧ s.vMasterKey = [] → s.getKey c address = none)) ∧
      (∀ vMasterKeyIn fForMixingOnly, (vault c events).masterKey ≠ some vMasterKeyIn →
        ∃ s', s.unlock c vMasterKeyIn fForMixingOnly = some (false, s') ∧ s'.mapKeys = s.mapKeys ∧
          s'.mapCryptedKeys = s.mapCryptedKeys ∧ s'.vMasterKey = s.vMasterKey) ∧
      ∀ vMasterKeyIn fForMixingOnly, s.unlock c vMasterKeyIn fForMixingOnly ≠ none := by
  have hr := run_represents hc h
  refine ⟨fun hcrypto => (hr.crypted hcrypto).1, fun hplain => (hr.plain hplain).1, fun address key hkey =>
    ⟨fun hopen => hr.getKey_open hc hopen hkey, fun ⟨hcrypto, hlocked⟩ =>
      Represents.getKey_locked hcrypto hlocked address⟩, fun vMasterKeyIn fForMixingOnly hne => ?_,
    fun vMasterKeyIn fForMixingOnly => ?_⟩
  · rcases hr.unlock_cases hc vMasterKeyIn fForMixingOnly with heq | ⟨hmaster, -, -⟩
    · refine ⟨_, heq, ?_⟩
      rcases s.setCrypted_cases with ⟨hs, -⟩ | ⟨hs, -⟩ | ⟨hs, -⟩ <;> rw [hs] <;> exact ⟨rfl, rfl, rfl⟩
    · exact absurd hmaster hne
  · rcases hr.unlock_cases hc vMasterKeyIn fForMixingOnly with heq | ⟨-, -, heq⟩ <;> rw [heq] <;>
      exact Option.some_ne_none _

structure CipherRow where
  key : Bytes
  iv : Bytes
  plaintext : Bytes
  ciphertext : Bytes
  deriving DecidableEq

def sampleMaster : Bytes := replicate 32 7

/-- The key and the vector that `EVP_BytesToKey` derives from the passphrase `p` and a salt of zeros
in 25000 rounds. -/
def derivedP : Bytes × Bytes :=
  (beBytes 32 0xe828ba0861517948296a0cac97d6c11b8bd15a0d40d169d17b06505c0cae066b,
    beBytes 16 0x0fad515b5831ca9a67104940447bf089)

def derivedQ : Bytes × Bytes :=
  (beBytes 32 0x66342ffd892f801958e576ad889638fd806bb4d7f185f110e52b1db2427cc3e3,
    beBytes 16 0x779b381404edbad00d5e38382386915c)

/-- What AES-256-CBC makes of the first key under the master key, and of the master key under the
two derived keys. -/
def cipherRows : List CipherRow :=
  [⟨sampleMaster, sampleHash (samplePubKey 1), beBytes 32 1,
    beBytes 48 0x8b39a34503d53bf6ff48cbb60aa845840fc94eb7e14fad44deb2e92f3866c67316d6f6871e14b53b366416785cec09ba⟩,
   ⟨derivedP.1, derivedP.2, sampleMaster,
    beBytes 48 0xfc0c8fadffc2b782c6edbb19da50fc310a2d5195275367c8f23207509001484e6cb5bfe9b633bf23dd087173af7622f5⟩,
   ⟨derivedQ.1, derivedQ.2, sampleMaster,
    beBytes 48 0x1dac53d4c3f7985c1c3ccf77c2fe9670b4bfdbd521b37219b52f201be3c3e915d95e0c3d4c321cb79c0e3681200c6a79⟩]

def tablePubKey (key : CKey) : CPubKey :=
  if key = sampleKey 1 then samplePubKey 1
  else if key.fCompressed then 3 :: key.vch else 4 :: (key.vch ++ replicate 32 0)

/-- The first key and the rows of `cipherRows` have the values of the program. No other public key
starts with 2 here, and no other ciphertext with a byte that is not 0. -/
def tableCrypt : Crypt where
  getPubKey := tablePubKey
  getID := sampleHash160
  getHash vchPubKey := sampleHash vchPubKey
  check := PrivKey.seckeyVerify
  verifies key vchPubKey := vchPubKey == tablePubKey key
  encrypt vMasterKey nIV secret :=
    match cipherRows.find? fun r => r.key = vMasterKey ∧ r.iv = nIV ∧ r.plaintext = secret with
    | some r => r.ciphertext
    | none => 0 :: (vMasterKey ++ secret)
  decrypt vMasterKey nIV vchCiphertext :=
    match cipherRows.find? fun r => r.ciphertext = vchCiphertext with
    | some r => if r.key = vMasterKey ∧ r.iv = nIV then some r.plaintext else none
    | none =>
      if (vchCiphertext.drop 1).take 32 = vMasterKey then some (vchCiphertext.drop 33) else none

theorem find_ciphertext (h : r ∈ cipherRows) :
    cipherRows.find? (fun r' => r'.ciphertext = r.ciphertext) = some r := by
  have hall : (cipherRows.all fun r =>
      cipherRows.find? (fun r' => r'.ciphertext = r.ciphertext) = some r) = true := by decide +kernel
  exact of_decide_eq_true (all_eq_true.mp hall r h)

theorem find_ciphertext_zero (rest : Bytes) :
    cipherRows.find? (fun r => r.ciphertext = 0 :: rest) = none := by
  have hall : (cipherRows.all fun r => r.ciphertext.head? != some 0) = true := by decide +kernel
  refine find?_eq_none.mpr fun r hr heq => ?_
  have hhead := all_eq_true.mp hall r hr
  rw [of_decide_eq_true heq] at hhead
  exact absurd hhead (by simp)

theorem samplePubKey_head : (samplePubKey 1).head? = some 2 := by decide +kernel

theorem tablePubKey_injective : Function.Injective tablePubKey := by
  intro key key' h
  have hhead := congrArg head? h
  rw [tablePubKey, tablePubKey] at h hhead
  by_cases hkey : key = sampleKey 1 <;> by_cases hkey' : key' = sampleKey 1
  · rw [hkey, hkey']
  · rw [if_pos hkey, if_neg hkey', samplePubKey_head] at hhead
    split_ifs at hhead <;> exact absurd hhead (by simp)
  · rw [if_neg hkey, if_pos hkey', samplePubKey_head] at hhead
    split_ifs at hhead <;> exact absurd hhead (by simp)
  · obtain ⟨f, vch⟩ := key
    obtain ⟨f', vch'⟩ := key'
    rw [if_neg hkey, if_neg hkey'] at h
    cases f <;> cases f' <;> simp_all

theorem isCompressed_tablePubKey (hlength : key.vch.length = 32) :
    Crypt.isCompressed (tablePubKey key) = key.fCompressed := by
  have hsample : (samplePubKey 1).length = 33 := PrivKey.length_compressed _
  rw [Crypt.isCompressed, tablePubKey]
  split_ifs with hkey hflag
  · rw [hsample, hkey]
    rfl
  · simp [hlength, hflag]
  · simp [hlength, hflag]

theorem tableCrypt_lawful : tableCrypt.Lawful := by
  refine ⟨fun k iv secret hk => ?_, fun k k' iv secret hk hk' hne => ?_,
    fun key key' hkey hkey' => ?_⟩
  · simp only [tableCrypt]
    cases hfind : cipherRows.find? fun r => r.key = k ∧ r.iv = iv ∧ r.plaintext = secret with
    | none => simp [find_ciphertext_zero, ← hk]
    | some r =>
      have hrow := find?_some hfind
      obtain ⟨hkey, hiv, hplain⟩ := of_decide_eq_true hrow
      simp [find_ciphertext (mem_of_find?_eq_some hfind), hkey, hiv, hplain]
  · simp only [tableCrypt]
    cases hfind : cipherRows.find? fun r => r.key = k ∧ r.iv = iv ∧ r.plaintext = secret with
    | none => simp [find_ciphertext_zero, ← hk, hne.symm]
    | some r =>
      have hrow := find?_some hfind
      obtain ⟨hkey, -⟩ := of_decide_eq_true hrow
      simp [find_ciphertext (mem_of_find?_eq_some hfind), hkey, hne.symm]
  · have hflag := isCompressed_tablePubKey hkey.1
    change (if Crypt.isCompressed (tablePubKey key) ≠ key'.fCompressed then false
      else tablePubKey key == tablePubKey key') = true ↔ _
    rw [hflag]
    constructor
    · intro h
      split_ifs at h
      exact (tablePubKey_injective (beq_iff_eq.mp h)).symm
    · rintro rfl
      simp

theorem keyStore_faithful_unlocked :
    ∃ (events : List Event) (s : CCryptoKeyStore),
      Run (keyStore tableCrypt) .new events s ∧ s.fUseCrypto = true ∧ s.vMasterKey = sampleMaster ∧
        (vault tableCrypt events).keys (sampleID 1) = some (sampleKey 1) ∧
        s.getKey tableCrypt (sampleID 1) = some (sampleKey 1) := by
  have hpubkey : tableCrypt.getPubKey (sampleKey 1) = samplePubKey 1 := by decide +kernel
  have hid : tableCrypt.getID (samplePubKey 1) = sampleID 1 := by decide +kernel
  have hvalid : tableCrypt.Valid (sampleKey 1) := ⟨rfl, by decide +kernel⟩
  let s₁ : CCryptoKeyStore := { CCryptoKeyStore.new with mapKeys := AList.insert (sampleID 1) (sampleKey 1) ∅ }
  let s₂ : CCryptoKeyStore := { s₁ with
    fUseCrypto := true, mapKeys := ∅
    mapCryptedKeys := AList.insert (sampleID 1) (tableCrypt.entry sampleMaster (sampleKey 1)) ∅ }
  let s₃ : CCryptoKeyStore := { s₂ with vMasterKey := sampleMaster, fDecryptionThoroughlyChecked := true }
  have h₁ : (keyStore tableCrypt).next .new (.addKeyPubKey (sampleKey 1) true) s₁ := by
    refine ⟨hvalid, ?_⟩
    rw [CCryptoKeyStore.addKeyPubKey, hpubkey, hid]
    rfl
  have h₂ : (keyStore tableCrypt).next s₁ (.encryptKeys sampleMaster true) s₂ := by
    refine ⟨rfl, ?_⟩
    have hord : inOrder s₁.mapKeys = [(sampleID 1, sampleKey 1)] := inOrder_singleton _ _
    rw [CCryptoKeyStore.encryptKeys, hord]
    rfl
  have h₃ : (keyStore tableCrypt).next s₂ (.unlock sampleMaster false true) s₃ := by
    have hord : inOrder s₂.mapCryptedKeys = [(sampleID 1, tableCrypt.entry sampleMaster (sampleKey 1))] :=
      inOrder_singleton _ _
    simp only [keyStore, Step, CCryptoKeyStore.unlock]
    rw [CCryptoKeyStore.setCrypted_of_crypted rfl]
    have hdec : tableCrypt.decryptKey sampleMaster (tableCrypt.entry sampleMaster (sampleKey 1)).2
        (tableCrypt.entry sampleMaster (sampleKey 1)).1 = some (sampleKey 1) :=
      tableCrypt_lawful.decryptKey_entry length_replicate hvalid
    simp only [hord, CCryptoKeyStore.tryKeys, hdec]
    rfl
  let events : List Event :=
    [.addKeyPubKey (sampleKey 1) true, .encryptKeys sampleMaster true, .unlock sampleMaster false true]
  have hrun : Run (keyStore tableCrypt) .new events s₃ := .snoc (.snoc (.snoc .nil h₁) h₂) h₃
  have hne : s₃.vMasterKey ≠ [] := by decide
  have hkey : (vault tableCrypt events).keys (sampleID 1) = some (sampleKey 1) := by
    decide +kernel
  obtain ⟨-, -, hget, -⟩ := keyStore_faithful tableCrypt_lawful hrun
  exact ⟨events, s₃, hrun, rfl, rfl, hkey, (hget _ _ hkey).1 (.inr hne)⟩

end Utsuite.CryptoKeyStore
