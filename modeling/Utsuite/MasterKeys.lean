import Utsuite.CryptoKeyStore

namespace Utsuite.MasterKeys

open ByteWords CryptoKeyStore CurveKeys

structure CMasterKey where
  vchCryptedKey : Bytes
  vchSalt : Bytes
  nDerivationMethod : Nat
  nDeriveIterations : Nat
  vchOtherDerivationParameters : Bytes
  deriving DecidableEq

/-- OpenSSL, and the two computations in floating point: `n * (100 / elapsed)` and the average. -/
structure Platform where
  crypt : Crypt
  bytesToKey : Bytes → Bytes → Nat → Bytes × Bytes
  bytesToKey_length : ∀ pass salt rounds, (bytesToKey pass salt rounds).1.length = 32
  rescale : Nat → Int → Nat
  average : Nat → Int → Nat

structure CWallet where
  keyStore : CCryptoKeyStore
  mapMasterKeys : AList fun _ : Nat => CMasterKey
  db : Nat → Option CMasterKey

variable (p : Platform)

def setKeyFromPassphrase (evpOk : Bool) (strKeyData : Bytes) (key : CMasterKey) : Option (Bytes × Bytes) :=
  if key.nDeriveIterations < 1 || key.vchSalt.length != 8 then none
  else if key.nDerivationMethod = 0 && evpOk then
    some (p.bytesToKey strKeyData key.vchSalt key.nDeriveIterations)
  else none

/-- What a round of the loop over the records tries: `none` ends the loop, and `some none` goes on with
the next record. Only `Unlock` goes on after a record that does not decrypt. -/
def decryptRecord (skips evpOk : Bool) (pass : Bytes) (key : CMasterKey) : Option (Option Bytes) := do
  let (chKey, chIV) ← setKeyFromPassphrase p evpOk pass key
  match p.crypt.decrypt chKey chIV key.vchCryptedKey with
  | none => if skips then some none else none
  | some vMasterKey => some (some vMasterKey)

def unlockEach (skips : Bool) (evpOk : Nat → Bool) (pass : Bytes) :
    List (Nat × CMasterKey) → CCryptoKeyStore → Option (Option (Nat × CMasterKey × Bytes) × CCryptoKeyStore)
  | [], s => some (none, s)
  | (id, key) :: keys, s =>
    match decryptRecord p skips (evpOk id) pass key with
    | none => some (none, s)
    | some none => unlockEach skips evpOk pass keys s
    | some (some vMasterKey) =>
      match s.unlock p.crypt vMasterKey false with
      | none => none
      | some (true, s) => some (some (id, key, vMasterKey), s)
      | some (false, s) => unlockEach skips evpOk pass keys s

/-- `Unlock` passes no `fForMixingOnly` on, so the key store uses its default. -/
def CWallet.unlock (w : CWallet) (evpOk : Nat → Bool) (strWalletPassphrase : Bytes) (_fForMixingOnly : Bool) :
    Option (Bool × CWallet) := do
  let (found, keyStore) ← unlockEach p true evpOk strWalletPassphrase (inOrder w.mapMasterKeys) w.keyStore
  some (found.isSome, { w with keyStore })

def CWallet.lock (w : CWallet) (fAllowMixing : Bool) : Bool × CWallet :=
  let (ret, keyStore) := w.keyStore.lock fAllowMixing
  (ret, { w with keyStore })

/-- What happens during one call of `ChangeWalletPassphrase`: derivations, failures and the clock.
-/
structure Env where
  evpOk : Nat → Bool
  evpOkNew : Bool
  encryptLeaves : Option Bytes
  writes : Bool
  clock : Fin 4 → Int

def newIterations (env : Env) (n : Nat) : Nat :=
  let n := p.rescale n (env.clock 1 - env.clock 0)
  let n := p.average n (env.clock 3 - env.clock 2)
  if n < 25000 then 25000 else n

def reencrypt (env : Env) (strNewWalletPassphrase vMasterKey : Bytes) (key : CMasterKey) : Bool × CMasterKey :=
  let key := { key with nDeriveIterations := newIterations p env key.nDeriveIterations }
  match setKeyFromPassphrase p env.evpOkNew strNewWalletPassphrase key with
  | none => (false, key)
  | some (chKey, chIV) =>
    match env.encryptLeaves with
    | some vchCryptedKey => (false, { key with vchCryptedKey })
    | none => (true, { key with vchCryptedKey := p.crypt.encrypt chKey chIV vMasterKey })

def changeRecord (env : Env) (strNewWalletPassphrase : Bytes) (fWasLocked : Bool) (id : Nat) (key : CMasterKey)
    (vMasterKey : Bytes) (w : CWallet) : Bool × CWallet :=
  let (ok, key) := reencrypt p env strNewWalletPassphrase vMasterKey key
  let w := { w with mapMasterKeys := w.mapMasterKeys.insert id key }
  if !ok then (false, w)
  else
    -- the result of `WriteMasterKey` is not looked at
    let w := if env.writes then { w with db := Function.update w.db id (some key) } else w
    (true, if fWasLocked then (w.lock false).2 else w)

def CWallet.changeWalletPassphrase (w : CWallet) (env : Env)
    (strOldWalletPassphrase strNewWalletPassphrase : Bytes) : Option (Bool × CWallet) := do
  let fWasLocked := w.keyStore.isLocked false
  let w := (w.lock false).2
  let (found, keyStore) ←
    unlockEach p false env.evpOk strOldWalletPassphrase (inOrder w.mapMasterKeys) w.keyStore
  let w := { w with keyStore }
  match found with
  | none => some (false, w)
  | some (id, key, vMasterKey) =>
    some (changeRecord p env strNewWalletPassphrase fWasLocked id key vMasterKey w)

def outcome (s : CCryptoKeyStore) (vMasterKey : Bytes) : Bool × Bool :=
  CCryptoKeyStore.tryKeys p.crypt vMasterKey s.fDecryptionThoroughlyChecked (inOrder s.mapCryptedKeys) false

def fits (s : CCryptoKeyStore) (vMasterKey : Bytes) : Bool :=
  s.setCrypted.1 && outcome p s vMasterKey == (true, false)

def opening (skips : Bool) (evpOk : Nat → Bool) (pass : Bytes) (s : CCryptoKeyStore) :
    List (Nat × CMasterKey) → Option (Nat × CMasterKey × Bytes)
  | [] => none
  | (id, key) :: keys =>
    match decryptRecord p skips (evpOk id) pass key with
    | none => none
    | some none => opening skips evpOk pass s keys
    | some (some vMasterKey) =>
      if fits p s vMasterKey then some (id, key, vMasterKey) else opening skips evpOk pass s keys

theorem setCrypted_setCrypted (s : CCryptoKeyStore) : s.setCrypted.2.setCrypted = s.setCrypted := by
  rcases s.setCrypted_cases with ⟨h, -⟩ | ⟨h, -⟩ | ⟨h, -⟩ <;> rw [h]
  · exact h
  · exact h
  · exact CCryptoKeyStore.setCrypted_of_crypted rfl

def opened (s : CCryptoKeyStore) (vMasterKey : Bytes) (fForMixingOnly : Bool) : CCryptoKeyStore :=
  { s.setCrypted.2 with
    vMasterKey := vMasterKey
    fDecryptionThoroughlyChecked := true
    fOnlyMixingAllowed := fForMixingOnly }

variable {p} {pass : Bytes}

theorem outcome_setCrypted (s : CCryptoKeyStore) (vMasterKey : Bytes) :
    outcome p s.setCrypted.2 vMasterKey = outcome p s vMasterKey := by
  rcases s.setCrypted_cases with ⟨h, -⟩ | ⟨h, -⟩ | ⟨h, -⟩ <;> simp only [h, outcome]

theorem fits_setCrypted (s : CCryptoKeyStore) (vMasterKey : Bytes) :
    fits p s.setCrypted.2 vMasterKey = fits p s vMasterKey := by
  rw [fits, setCrypted_setCrypted, outcome_setCrypted, fits]

theorem unlock_eq (s : CCryptoKeyStore) (vMasterKey : Bytes) (fForMixingOnly : Bool) :
    s.unlock p.crypt vMasterKey fForMixingOnly =
      if s.setCrypted.1 = true ∧ outcome p s vMasterKey = (true, true) then none
      else if fits p s vMasterKey then some (true, opened s vMasterKey fForMixingOnly)
      else some (false, s.setCrypted.2) := by
  have hout := outcome_setCrypted (p := p) s vMasterKey
  unfold CCryptoKeyStore.unlock fits opened
  rw [← hout]
  rcases s.setCrypted with ⟨ok, t⟩
  cases ok with
  | false => rfl
  | true =>
    change (if (outcome p t vMasterKey).1 && (outcome p t vMasterKey).2 then none
      else if (outcome p t vMasterKey).2 || !(outcome p t vMasterKey).1 then some (false, t)
      else some (true, _)) = _
    rcases outcome p t vMasterKey with ⟨keyPass, keyFail⟩
    cases keyPass <;> cases keyFail <;> rfl

theorem fits_lock (s : CCryptoKeyStore) (fAllowMixing : Bool) (vMasterKey : Bytes) :
    fits p (s.lock fAllowMixing).2 vMasterKey = fits p s vMasterKey := by
  have hset := fits_setCrypted (p := p) s vMasterKey
  rcases s.setCrypted_cases with ⟨h, hs⟩ | ⟨h, -⟩ | ⟨h, -⟩ <;>
    rw [h] at hset <;> simp only [CCryptoKeyStore.lock, h] <;> rw [← hset]
  · cases fAllowMixing <;> simp [fits, outcome, CCryptoKeyStore.setCrypted, hs]
  · cases fAllowMixing <;> simp [fits, outcome, CCryptoKeyStore.setCrypted]

theorem unlock_some (h : s.unlock p.crypt vMasterKey fForMixingOnly = some (ret, s')) :
    ret = fits p s vMasterKey ∧ s' = if ret then opened s vMasterKey fForMixingOnly else s.setCrypted.2 := by
  rw [unlock_eq] at h
  split_ifs at h with hassert hfits
  · obtain ⟨rfl, rfl⟩ := Prod.mk.inj (Option.some.inj h)
    exact ⟨hfits.symm, rfl⟩
  · obtain ⟨rfl, rfl⟩ := Prod.mk.inj (Option.some.inj h)
    exact ⟨(Bool.eq_false_iff.mpr hfits).symm, rfl⟩

theorem opening_congr (h : ∀ vMasterKey, fits p s vMasterKey = fits p s' vMasterKey) (skips : Bool)
    (evpOk : Nat → Bool) (pass : Bytes) (keys : List (Nat × CMasterKey)) :
    opening p skips evpOk pass s keys = opening p skips evpOk pass s' keys := by
  induction keys with
  | nil => rfl
  | cons e keys ih => simp only [opening, h, ih]

def Leaves (s s' : CCryptoKeyStore) : Option (Nat × CMasterKey × Bytes) → Prop
  | none => s' = s ∨ s' = s.setCrypted.2
  | some (_, _, vMasterKey) => s' = opened s vMasterKey false

theorem unlockEach_some (h : unlockEach p skips evpOk pass keys s = some (found, s')) :
    found = opening p skips evpOk pass s keys ∧ Leaves s s' found := by
  induction keys generalizing s with
  | nil =>
    cases h
    exact ⟨rfl, .inl rfl⟩
  | cons e keys ih =>
    obtain ⟨id, key⟩ := e
    rw [unlockEach] at h
    rw [opening]
    rcases hdec : decryptRecord p skips (evpOk id) pass key with _ | _ | vMasterKey <;> rw [hdec] at h
    · cases h
      exact ⟨rfl, .inl rfl⟩
    · exact ih h
    · rcases hun : s.unlock p.crypt vMasterKey false with _ | ⟨ok, t⟩
      · simp [hun] at h
      · obtain ⟨hok, ht⟩ := unlock_some hun
        simp only [hun] at h
        dsimp only
        rw [← hok]
        cases ok with
        | true =>
          cases h
          exact ⟨rfl, ht⟩
        | false =>
          rw [if_neg Bool.false_ne_true] at ht ⊢
          rw [ht] at h
          obtain ⟨hfound, hs⟩ := ih h
          refine ⟨hfound.trans (opening_congr (fits_setCrypted s) ..), ?_⟩
          -- the store was marked as crypted by the first attempt already
          cases found with
          | none => exact .inr (hs.elim (fun h => h) fun h => h.trans (by rw [setCrypted_setCrypted]))
          | some f => exact hs.trans (by rw [opened, setCrypted_setCrypted, opened])

theorem length_of_fits (h : fits p s vMasterKey = true) : vMasterKey.length = 32 := by
  by_contra hlen
  have hdec (vchCryptedSecret vchPubKey : Bytes) :
      p.crypt.decryptKey vMasterKey vchCryptedSecret vchPubKey = none := by
    simp [Crypt.decryptKey, Crypt.decryptSecret, hlen]
  simp only [fits, outcome, Bool.and_eq_true, beq_iff_eq] at h
  cases hkeys : inOrder s.mapCryptedKeys with
  | nil => simp [hkeys, CCryptoKeyStore.tryKeys] at h
  | cons e keys => simp [hkeys, CCryptoKeyStore.tryKeys, hdec] at h

theorem decryptRecord_eq_some (h : decryptRecord p skips evpOk pass key = some (some vMasterKey)) :
    ∃ k, setKeyFromPassphrase p evpOk pass key = some k ∧
      p.crypt.decrypt k.1 k.2 key.vchCryptedKey = some vMasterKey := by
  obtain ⟨⟨chKey, chIV⟩, hset, h⟩ := Option.bind_eq_some_iff.mp h
  refine ⟨_, hset, ?_⟩
  dsimp only at h ⊢
  cases hdec : p.crypt.decrypt chKey chIV key.vchCryptedKey with
  | none =>
    rw [hdec] at h
    split_ifs at h
    cases h
  | some _ =>
    rw [hdec] at h
    cases h
    rfl

theorem opening_eq_some {skips : Bool} {evpOk : Nat → Bool} {s : CCryptoKeyStore}
    {keys : List (Nat × CMasterKey)} {id : Nat} {key : CMasterKey} {vMasterKey : Bytes}
    (h : opening p skips evpOk pass s keys = some (id, key, vMasterKey)) :
    (id, key) ∈ keys ∧ fits p s vMasterKey = true ∧ ∃ k, setKeyFromPassphrase p (evpOk id) pass key = some k ∧
      p.crypt.decrypt k.1 k.2 key.vchCryptedKey = some vMasterKey := by
  induction keys with
  | nil => cases h
  | cons e keys ih =>
    have hlater (h : opening p skips evpOk pass s keys = some (id, key, vMasterKey)) :=
      (ih h).imp_left (List.mem_cons_of_mem e)
    rw [opening] at h
    split at h
    · cases h
    · exact hlater h
    · next hdec =>
        split_ifs at h with hfits
        · cases h
          exact ⟨List.mem_cons_self, hfits, decryptRecord_eq_some hdec⟩
        · exact hlater h

theorem setKeyFromPassphrase_new (h : setKeyFromPassphrase p evpOk pass key = some k) (env : Env)
    (new : Bytes) :
    setKeyFromPassphrase p env.evpOkNew new
        { key with nDeriveIterations := newIterations p env key.nDeriveIterations } =
      if env.evpOkNew then some (p.bytesToKey new key.vchSalt (newIterations p env key.nDeriveIterations))
      else none := by
  have hn : 25000 ≤ newIterations p env key.nDeriveIterations := by
    simp only [newIterations]
    split_ifs <;> omega
  simp only [setKeyFromPassphrase, Bool.or_eq_true, decide_eq_true_eq, bne_iff_ne, ne_eq] at h ⊢
  split_ifs at h with hguard hmethod
  obtain ⟨-, hsalt⟩ := not_or.mp hguard
  simp only [Bool.and_eq_true, decide_eq_true_eq] at hmethod
  rw [if_neg (not_or.mpr ⟨by omega, hsalt⟩)]
  simp [hmethod.1]

def tableBytesToKey (pass salt : Bytes) (rounds : Nat) : Bytes × Bytes :=
  if salt = List.replicate 8 0 ∧ pass = [112] ∧ rounds = 25000 then derivedP
  else if salt = List.replicate 8 0 ∧ pass = [113] ∧ rounds = 50000 then derivedQ
  else (List.replicate 32 0, List.replicate 16 0)

theorem tableBytesToKey_length (pass salt : Bytes) (rounds : Nat) :
    (tableBytesToKey pass salt rounds).1.length = 32 := by
  rw [tableBytesToKey]
  split_ifs
  · exact beBytes_length _ _
  · exact beBytes_length _ _
  · exact List.length_replicate

def tablePlatform : Platform where
  crypt := tableCrypt
  bytesToKey := tableBytesToKey
  bytesToKey_length := tableBytesToKey_length
  rescale n elapsed := (n * 100 / elapsed).toNat
  average n elapsed := ((n + n * 100 / elapsed) / 2).toNat

def sampleRecord : CMasterKey where
  vchCryptedKey := tableCrypt.encrypt derivedP.1 derivedP.2 sampleMaster
  vchSalt := List.replicate 8 0
  nDerivationMethod := 0
  nDeriveIterations := 25000
  vchOtherDerivationParameters := []

def sampleWallet : CWallet where
  keyStore := { CCryptoKeyStore.new with
    fUseCrypto := true
    mapCryptedKeys := AList.insert (sampleID 1) (tableCrypt.entry sampleMaster (sampleKey 1)) ∅ }
  mapMasterKeys := AList.insert 1 sampleRecord ∅
  db id := if id = 1 then some sampleRecord else none

theorem sample_unlockEach (skips : Bool) (hs : s.fUseCrypto = true)
    (hkeys : s.mapCryptedKeys = sampleWallet.keyStore.mapCryptedKeys) :
    unlockEach tablePlatform skips (fun _ => true) [112] (inOrder sampleWallet.mapMasterKeys) s =
      some (some (1, sampleRecord, sampleMaster), opened s sampleMaster false) := by
  have hunlock : s.unlock tablePlatform.crypt sampleMaster false = some (true, opened s sampleMaster false) := by
    have hord : inOrder s.mapCryptedKeys = [(sampleID 1, tableCrypt.entry sampleMaster (sampleKey 1))] := by
      rw [hkeys]
      exact inOrder_singleton _ _
    have hdec : tablePlatform.crypt.decryptKey sampleMaster (tableCrypt.entry sampleMaster (sampleKey 1)).2
        (tableCrypt.entry sampleMaster (sampleKey 1)).1 = some (sampleKey 1) :=
      tableCrypt_lawful.decryptKey_entry List.length_replicate sampleKey_valid
    simp only [CCryptoKeyStore.unlock, CCryptoKeyStore.setCrypted_of_crypted hs, hord, CCryptoKeyStore.tryKeys,
      hdec, opened]
    cases s.fDecryptionThoroughlyChecked <;> rfl
  have hrecord : decryptRecord tablePlatform skips true [112] sampleRecord = some (some sampleMaster) := by
    cases skips <;> decide +kernel
  rw [show inOrder sampleWallet.mapMasterKeys = [(1, sampleRecord)] from inOrder_singleton _ _]
  simp only [unlockEach, hrecord, hunlock]

end Utsuite.MasterKeys
