import Utsuite.MasterKeys

namespace Utsuite.ChangePassphrase

open ByteWords CryptoKeyStore MasterKeys

theorem inOrder_congr {β : Type} {m m' : AList fun _ : Nat => β} (h : ∀ a, m.lookup a = m'.lookup a) :
    inOrder m = inOrder m' := by
  have hmem (e : Sigma fun _ : Nat => β) : e ∈ m.entries ↔ e ∈ m'.entries := by
    rw [← AList.mem_lookup_iff, ← AList.mem_lookup_iff, h]
  have hperm : m.entries.Perm m'.entries :=
    (List.perm_ext_iff_of_nodup m.nodupKeys.nodup m'.nodupKeys.nodup).mpr hmem
  have hsorted (l : List (Sigma fun _ : Nat => β)) :
      (l.mergeSort fun a b => decide (a.1 ≤ b.1)).Pairwise fun a b => decide (a.1 ≤ b.1) = true := by
    refine List.pairwise_mergeSort (fun a b c hab hbc => ?_) (fun a b => ?_) l
    · rw [decide_eq_true_eq] at hab hbc ⊢
      exact hab.trans hbc
    · rw [Bool.or_eq_true, decide_eq_true_eq, decide_eq_true_eq]
      exact le_total a.1 b.1
  unfold inOrder
  congr 1
  refine List.Perm.eq_of_pairwise ?_ (hsorted _) (hsorted _)
    ((List.mergeSort_perm _ _).trans (hperm.trans (List.mergeSort_perm _ _).symm))
  -- two entries of one key are the same entry
  rintro ⟨a, b⟩ ⟨a', b'⟩ ha hb hle hle'
  simp only [decide_eq_true_eq] at hle hle'
  obtain rfl : a = a' := le_antisymm hle hle'
  have hb₁ := AList.mem_lookup_iff.mpr (List.mem_mergeSort.mp ha)
  have hb₂ := AList.mem_lookup_iff.mpr (List.mem_mergeSort.mp hb)
  rw [h] at hb₁
  rw [Option.mem_unique hb₁ hb₂]

variable (p : Platform)

def Decrypts (pass : Bytes) (key : CMasterKey) (vMasterKey : Bytes) : Prop :=
  ∃ k, setKeyFromPassphrase p true pass key = some k ∧
    p.crypt.decrypt k.1 k.2 key.vchCryptedKey = some vMasterKey

def Unlocks (w : CWallet) (pass : Bytes) : Prop :=
  ∃ w', w.unlock p (fun _ => true) pass false = some (true, w')

/-- At most the record that the old passphrase opened has changed. It is the same in memory and in
the file, and the new passphrase opens it. -/
def Changed (env : Env) (old new : Bytes) (w w' : CWallet) : Prop :=
  ∃ id key vMasterKey key',
    opening p false env.evpOk old w.keyStore (inOrder w.mapMasterKeys) = some (id, key, vMasterKey) ∧
    w'.mapMasterKeys.lookup id = some key' ∧ w'.db id = some key' ∧ Decrypts p new key' vMasterKey ∧
    ∀ i, i ≠ id → w'.mapMasterKeys.lookup i = w.mapMasterKeys.lookup i ∧ w'.db i = w.db i

def Unchanged (w w' : CWallet) : Prop :=
  (∀ i, w'.mapMasterKeys.lookup i = w.mapMasterKeys.lookup i) ∧ w'.db = w.db ∧
    ∀ pass, Unlocks p w pass → Unlocks p w' pass

def AllOrNothing (env : Env) (old new : Bytes) (w : CWallet) (ret : Bool) (w' : CWallet) : Prop :=
  if ret then Changed p env old new w w' else Unchanged p w w'

def withCiphertext (key : CMasterKey) (nDeriveIterations : Nat) (vchCryptedKey : Bytes) : CMasterKey :=
  { key with nDeriveIterations, vchCryptedKey }

/-- Everything that the code does after it has decrypted the master key succeeds, or leaves what was
there before. -/
def Completes (env : Env) (old new : Bytes) (w : CWallet) : Prop :=
  ∀ id key vMasterKey,
    opening p false env.evpOk old w.keyStore (inOrder w.mapMasterKeys) = some (id, key, vMasterKey) →
    let n := newIterations p env key.nDeriveIterations
    let k := p.bytesToKey new key.vchSalt n
    if env.evpOkNew then
      match env.encryptLeaves with
      | none => env.writes = true ∨ w.db id = some (withCiphertext key n (p.crypt.encrypt k.1 k.2 vMasterKey))
      | some vchCryptedKey => withCiphertext key n vchCryptedKey = key
    else withCiphertext key n key.vchCryptedKey = key

structure Later (s s' : CCryptoKeyStore) : Prop where
  setCrypted : s'.setCrypted.1 = s.setCrypted.1
  keys : s'.mapCryptedKeys = s.mapCryptedKeys
  checked : s'.fDecryptionThoroughlyChecked = s.fDecryptionThoroughlyChecked ∨
    s'.fDecryptionThoroughlyChecked = true

theorem Later.trans (h : Later s s') (h' : Later s' s'') : Later s s'' :=
  ⟨h'.setCrypted.trans h.setCrypted, h'.keys.trans h.keys,
    h'.checked.elim (fun heq => h.checked.imp heq.trans heq.trans) .inr⟩

theorem checked_setCrypted (s : CCryptoKeyStore) :
    s.setCrypted.2.fDecryptionThoroughlyChecked = s.fDecryptionThoroughlyChecked := by
  rcases s.setCrypted_cases with ⟨h, -⟩ | ⟨h, -⟩ | ⟨h, -⟩ <;> rw [h]

theorem later_setCrypted (s : CCryptoKeyStore) : Later s s.setCrypted.2 := by
  refine ⟨by rw [setCrypted_setCrypted], ?_, .inl (checked_setCrypted s)⟩
  rcases s.setCrypted_cases with ⟨h, -⟩ | ⟨h, -⟩ | ⟨h, -⟩ <;> rw [h]

theorem later_lock (s : CCryptoKeyStore) : Later s (s.lock false).2 := by
  rcases s.setCrypted_cases with ⟨h, hs⟩ | ⟨h, hs⟩ | ⟨h, hs, -⟩ <;>
    simp only [CCryptoKeyStore.lock, h]
  · exact ⟨by rw [h, CCryptoKeyStore.setCrypted_of_crypted (by exact hs)], rfl, .inl rfl⟩
  · exact ⟨rfl, rfl, .inl rfl⟩
  · exact ⟨by rw [h, CCryptoKeyStore.setCrypted_of_crypted (by rfl)], rfl, .inl rfl⟩

theorem later_opened (hs : s.setCrypted.1 = true) (vMasterKey : Bytes) (fForMixingOnly : Bool) :
    Later s (opened s vMasterKey fForMixingOnly) := by
  refine ⟨?_, (later_setCrypted s).keys, .inr rfl⟩
  rcases s.setCrypted_cases with ⟨h, hc⟩ | ⟨h, -⟩ | ⟨h, -⟩
  · rw [opened, h, CCryptoKeyStore.setCrypted_of_crypted (by exact hc)]
  · simp [h] at hs
  · rw [opened, h, CCryptoKeyStore.setCrypted_of_crypted (by rfl)]

variable {p}

theorem tryKeys_pass (c : Crypt) (vMasterKey : Bytes) (checked : Bool) (keys : List (Wallet.CKeyID × Wallet.CPubKey × Bytes)) :
    (CCryptoKeyStore.tryKeys c vMasterKey checked keys true).1 = true := by
  induction keys with
  | nil => rfl
  | cons e keys ih =>
    simp only [CCryptoKeyStore.tryKeys]
    cases c.decryptKey vMasterKey e.2.2 e.2.1 <;> cases checked <;> simp [ih]

theorem tryKeys_checked (h : CCryptoKeyStore.tryKeys c vMasterKey false keys false ≠ (true, true)) :
    CCryptoKeyStore.tryKeys c vMasterKey true keys false = CCryptoKeyStore.tryKeys c vMasterKey false keys false := by
  cases keys with
  | nil => rfl
  | cons e keys =>
    simp only [CCryptoKeyStore.tryKeys] at h ⊢
    cases hdec : c.decryptKey vMasterKey e.2.2 e.2.1 with
    | none => rfl
    | some key =>
      simp only [hdec, Bool.false_eq_true, if_false, if_true] at h ⊢
      have hpass := tryKeys_pass c vMasterKey false keys
      generalize CCryptoKeyStore.tryKeys c vMasterKey false keys true = r at h hpass
      obtain ⟨keyPass, keyFail⟩ := r
      cases keyFail <;> simp_all

theorem Later.unlock (h : Later s s') (hun : s.unlock p.crypt vMasterKey false = some (ret, t)) :
    ∃ t', s'.unlock p.crypt vMasterKey false = some (ret, t') ∧ (ret = false → Later t t') := by
  rw [unlock_eq] at hun
  split_ifs at hun with hassert hfits <;> obtain ⟨rfl, rfl⟩ := Prod.mk.inj (Option.some.inj hun)
  all_goals
    have hout : s.setCrypted.1 = true → outcome p s' vMasterKey = outcome p s vMasterKey := by
      intro hs
      rw [outcome, outcome, h.keys]
      rcases h.checked with heq | heq <;> rw [heq]
      cases hchecked : s.fDecryptionThoroughlyChecked with
      | true => rfl
      | false =>
        apply tryKeys_checked
        intro hboth
        rw [outcome, hchecked] at hassert
        exact hassert ⟨hs, hboth⟩
    have hfits' : fits p s' vMasterKey = fits p s vMasterKey := by
      rw [fits, fits, h.setCrypted]
      cases hs : s.setCrypted.1 with
      | false => rfl
      | true => rw [hout hs]
    have hassert' : ¬(s'.setCrypted.1 = true ∧ outcome p s' vMasterKey = (true, true)) := by
      rintro ⟨hs, hboth⟩
      rw [h.setCrypted] at hs
      exact hassert ⟨hs, (hout hs).symm.trans hboth⟩
    rw [unlock_eq, if_neg hassert', hfits']
  · exact ⟨_, by rw [if_pos hfits], fun h => absurd h (by decide)⟩
  · refine ⟨_, by rw [if_neg hfits], fun _ => ⟨?_, ?_, ?_⟩⟩
    · rw [setCrypted_setCrypted, setCrypted_setCrypted, h.setCrypted]
    · rw [(later_setCrypted s').keys, (later_setCrypted s).keys, h.keys]
    · rw [checked_setCrypted, checked_setCrypted]
      exact h.checked

theorem unlockEach_later {pass : Bytes} (hlater : Later s s')
    (h : unlockEach p skips evpOk pass keys s = some (found, t)) :
    ∃ t', unlockEach p skips evpOk pass keys s' = some (found, t') := by
  induction keys generalizing s s' with
  | nil =>
    cases h
    exact ⟨_, rfl⟩
  | cons e keys ih =>
    obtain ⟨id, key⟩ := e
    rw [unlockEach] at h ⊢
    rcases hdec : decryptRecord p skips (evpOk id) pass key with _ | _ | vMasterKey <;> rw [hdec] at h
    · cases h
      exact ⟨_, rfl⟩
    · exact ih hlater h
    · rcases hun : s.unlock p.crypt vMasterKey false with _ | ⟨ret, u⟩
      · simp [hun] at h
      · obtain ⟨u', hun', hnext⟩ := hlater.unlock hun
        simp only [hun] at h
        simp only [hun']
        cases ret with
        | true =>
          cases h
          exact ⟨_, rfl⟩
        | false => exact ih (hnext rfl) h

theorem Unlocks.later {w w' : CWallet} (hlater : Later w.keyStore w'.keyStore)
    (hkeys : ∀ i, w'.mapMasterKeys.lookup i = w.mapMasterKeys.lookup i) {pass : Bytes} (h : Unlocks p w pass) :
    Unlocks p w' pass := by
  obtain ⟨v, hv⟩ := h
  simp only [CWallet.unlock, Option.bind_eq_bind, Option.bind_eq_some_iff] at hv
  obtain ⟨⟨found, t⟩, hloop, heq⟩ := hv
  obtain ⟨t', hloop'⟩ := unlockEach_later hlater hloop
  refine ⟨{ w' with keyStore := t' }, ?_⟩
  rw [CWallet.unlock, inOrder_congr hkeys, hloop']
  simpa using congrArg Prod.fst (Option.some.inj heq)

section

variable {w w' : CWallet} {id : Nat} {key key' : CMasterKey}

theorem unchanged_iff (hlater : Later w.keyStore w'.keyStore) (hlookup : w.mapMasterKeys.lookup id = some key)
    (hkeys : w'.mapMasterKeys = w.mapMasterKeys.insert id key') (hdb : w'.db = w.db) :
    Unchanged p w w' ↔ key' = key := by
  constructor
  · rintro ⟨h, -⟩
    have hid := h id
    rw [hkeys, hlookup] at hid
    exact Option.some.inj ((AList.lookup_insert _).symm.trans hid)
  · rintro rfl
    have hsame : ∀ i, w'.mapMasterKeys.lookup i = w.mapMasterKeys.lookup i := by
      intro i
      rw [hkeys]
      by_cases hi : i = id
      · subst hi
        exact (AList.lookup_insert _).trans hlookup.symm
      · exact AList.lookup_insert_ne hi
    exact ⟨hsame, hdb, fun pass h => h.later hlater hsame⟩

theorem changed_iff
    (hfound : opening p false env.evpOk old w.keyStore (inOrder w.mapMasterKeys) = some (id, key, vMasterKey))
    (hkeys : w'.mapMasterKeys = w.mapMasterKeys.insert id key')
    (hdb : w'.db = if env.writes then Function.update w.db id (some key') else w.db)
    (hdec : Decrypts p new key' vMasterKey) :
    Changed p env old new w w' ↔ env.writes = true ∨ w.db id = some key' := by
  have hid : w'.mapMasterKeys.lookup id = some key' := by
    rw [hkeys]
    exact AList.lookup_insert _
  have hdbid : w'.db id = some key' ↔ env.writes = true ∨ w.db id = some key' := by
    rw [hdb]
    cases env.writes <;> simp
  rw [← hdbid]
  constructor
  · rintro ⟨id₁, key₁, vMasterKey₁, key₂, hfound₁, hid₁, hdb₁, -⟩
    rw [hfound, Option.some.injEq, Prod.mk.injEq] at hfound₁
    obtain ⟨rfl, -⟩ := hfound₁
    rw [hdb₁, ← hid₁, hid]
  · intro h
    refine ⟨id, key, vMasterKey, key', hfound, hid, h, hdec, fun i hi => ⟨?_, ?_⟩⟩
    · rw [hkeys]
      exact AList.lookup_insert_ne hi
    · rw [hdb]
      cases env.writes with
      | false => rfl
      | true => exact Function.update_of_ne hi ..

end

/-- A change of the passphrase happens completely or not at all exactly when every step behind the
decryption of the master key succeeds. -/
theorem changeWalletPassphrase_all_or_nothing_iff
    (hinv : ∀ chKey chIV secret, chKey.length = 32 →
      p.crypt.decrypt chKey chIV (p.crypt.encrypt chKey chIV secret) = some secret)
    {env : Env} {old new : Bytes} {w w' : CWallet} {ret : Bool}
    (h : w.changeWalletPassphrase p env old new = some (ret, w')) :
    AllOrNothing p env old new w ret w' ↔ Completes p env old new w := by
  simp only [CWallet.changeWalletPassphrase, Option.bind_eq_bind, Option.bind_eq_some_iff] at h
  obtain ⟨⟨found, s'⟩, hloop, heq⟩ := h
  obtain ⟨hfound, hleaves⟩ := unlockEach_some hloop
  have hlock := later_lock w.keyStore
  replace hfound : found = opening p false env.evpOk old w.keyStore (inOrder w.mapMasterKeys) :=
    hfound.trans (opening_congr (fits_lock w.keyStore false) ..)
  cases found with
  | none =>
    obtain ⟨rfl, rfl⟩ := Prod.mk.inj (Option.some.inj heq)
    have hlater : Later w.keyStore s' := by
      rcases hleaves with rfl | rfl
      · exact hlock
      · exact hlock.trans (later_setCrypted _)
    refine iff_of_true ⟨fun _ => rfl, rfl, fun pass h => ?_⟩ fun id key vMasterKey hsome => ?_
    · apply Unlocks.later (w := w)
      · exact hlater
      · exact fun _ => rfl
      · exact h
    · rw [← hfound] at hsome
      cases hsome
  | some f =>
    obtain ⟨id, key, vMasterKey⟩ := f
    obtain ⟨hmem, hfits, k, hset, -⟩ := opening_eq_some hfound.symm
    have hlookup := mem_inOrder.mp hmem
    have hopen : w.keyStore.setCrypted.1 = true := by
      simp only [fits, Bool.and_eq_true] at hfits
      exact hfits.1
    have hlater : Later w.keyStore s' := by
      rw [show s' = _ from hleaves]
      exact hlock.trans (later_opened (hlock.setCrypted.trans hopen) vMasterKey false)
    have hcompletes {P : Nat → CMasterKey → Bytes → Prop} :
        (∀ id key vMasterKey, opening p false env.evpOk old w.keyStore (inOrder w.mapMasterKeys) =
          some (id, key, vMasterKey) → P id key vMasterKey) ↔ P id key vMasterKey := by
      rw [← hfound]
      simp
    rw [Completes, hcompletes]
    simp only [changeRecord, reencrypt, setKeyFromPassphrase_new hset, Option.some.injEq] at heq
    cases hnew : env.evpOkNew with
    | false =>
      simp only [hnew] at heq
      obtain ⟨rfl, rfl⟩ := Prod.mk.inj heq
      exact unchanged_iff hlater hlookup rfl rfl
    | true =>
      simp only [hnew] at heq
      cases hleft : env.encryptLeaves with
      | some vchCryptedKey =>
        simp only [hleft] at heq
        obtain ⟨rfl, rfl⟩ := Prod.mk.inj heq
        exact unchanged_iff hlater hlookup rfl rfl
      | none =>
        simp only [hleft] at heq
        obtain ⟨rfl, rfl⟩ := Prod.mk.inj heq
        refine changed_iff hfound.symm ?_ ?_ ?_
        · cases w.keyStore.isLocked false <;> cases env.writes <;> rfl
        · cases w.keyStore.isLocked false <;> cases env.writes <;> rfl
        · have hderive := setKeyFromPassphrase_new hset { env with evpOkNew := true } new
          exact ⟨_, hderive, hinv _ _ _ (p.bytesToKey_length ..)⟩

def sampleEnv (evpOkNew writes : Bool) : Env where
  evpOk := fun _ => true
  evpOkNew := evpOkNew
  encryptLeaves := none
  writes := writes
  clock i := [0, 50, 50, 150].getD i.val 0

def sampleChange (evpOkNew writes : Bool) : Bool × CWallet :=
  changeRecord tablePlatform (sampleEnv evpOkNew writes) [113] true 1 sampleRecord sampleMaster { sampleWallet with
    keyStore := opened (sampleWallet.keyStore.lock false).2 sampleMaster false }

theorem sampleChange_eq (hret : (sampleChange evpOkNew writes).1 = ret) :
    sampleWallet.changeWalletPassphrase tablePlatform (sampleEnv evpOkNew writes) [112] [113] =
      some (ret, (sampleChange evpOkNew writes).2) := by
  have hloop := sample_unlockEach false (s := (sampleWallet.keyStore.lock false).2) rfl rfl
  have hok : (sampleEnv evpOkNew writes).evpOk = fun _ => true := rfl
  simp only [CWallet.changeWalletPassphrase, CWallet.lock, hok, hloop, ← hret]
  rfl

theorem changeWalletPassphrase_completed :
    ∃ w', sampleWallet.changeWalletPassphrase tablePlatform (sampleEnv true true) [112] [113] = some (true, w') ∧
      Changed tablePlatform (sampleEnv true true) [112] [113] sampleWallet w' := by
  have hcall := @sampleChange_eq true true true rfl
  have hinv : ∀ chKey chIV secret : Bytes, chKey.length = 32 →
      tablePlatform.crypt.decrypt chKey chIV (tablePlatform.crypt.encrypt chKey chIV secret) = some secret :=
    tableCrypt_lawful.decrypt_encrypt
  have hiff := changeWalletPassphrase_all_or_nothing_iff hinv hcall
  exact ⟨_, hcall, hiff.mpr fun _ _ _ _ => .inl rfl⟩

/-- When the derivation of the new key fails, the wallet in memory has changed and its file has not.
A failed write is reported as a success. -/
theorem failed_change_leaves_traces :
    (∃ w', sampleWallet.changeWalletPassphrase tablePlatform (sampleEnv false true) [112] [113] = some (false, w') ∧
      w'.mapMasterKeys.lookup 1 = some { sampleRecord with nDeriveIterations := 50000 } ∧
      w'.db 1 = some sampleRecord) ∧
    ∃ w', sampleWallet.changeWalletPassphrase tablePlatform (sampleEnv true false) [112] [113] = some (true, w') ∧
      w'.db 1 = some sampleRecord ∧ w'.mapMasterKeys.lookup 1 ≠ w'.db 1 := by
  refine ⟨⟨(sampleChange false true).2, sampleChange_eq rfl, ?_, rfl⟩,
    (sampleChange true false).2, sampleChange_eq rfl, rfl, ?_⟩
  · decide +kernel
  · decide +kernel

end Utsuite.ChangePassphrase
