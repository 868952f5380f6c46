import Utsuite.MasterKeys

namespace Utsuite.LockMode

open ByteWords Transitions CryptoKeyStore MasterKeys

inductive Mode
  | locked
  | mixingOnly
  | unlocked
  deriving DecidableEq

def mode (s : CCryptoKeyStore) : Mode :=
  if s.isLocked true then .locked else if s.isLocked false then .mixingOnly else .unlocked

inductive Event
  | unlock (evpOk : Nat → Bool) (pass : Bytes) (fForMixingOnly ret : Bool)
  | lock (fAllowMixing ret : Bool)
  | changeWalletPassphrase (env : Env) (old new : Bytes) (ret : Bool)

def Mode.next (m : Mode) : Event → Mode
  | .unlock _ _ fForMixingOnly ret =>
    if ret then if fForMixingOnly then .mixingOnly else .unlocked
    else m
  | .lock fAllowMixing _ => if fAllowMixing && m != .locked then .mixingOnly else .locked
  | .changeWalletPassphrase .. => m

variable (p : Platform)

def Step (w : CWallet) (e : Event) (w' : CWallet) : Prop :=
  match e with
  | .unlock evpOk pass fForMixingOnly ret => w.unlock p evpOk pass fForMixingOnly = some (ret, w')
  | .lock fAllowMixing ret => w.lock fAllowMixing = (ret, w')
  | .changeWalletPassphrase env old new ret => w.changeWalletPassphrase p env old new = some (ret, w')

def wallet : System CWallet Event where
  start := {w | w.keyStore.fUseCrypto = true ∧ mode w.keyStore = .locked}
  next := Step p

def KeepsMode (w : CWallet) : Event → Prop
  | .unlock evpOk pass fForMixingOnly _ =>
    fForMixingOnly = false ∨ opening p true evpOk pass w.keyStore (inOrder w.mapMasterKeys) = none
  | .lock .. => True
  | .changeWalletPassphrase env old _ _ =>
    match mode w.keyStore with
    | .locked => opening p false env.evpOk old w.keyStore (inOrder w.mapMasterKeys) = none ∨
        env.evpOkNew = true ∧ env.encryptLeaves = none
    | .mixingOnly => False
    | .unlocked => opening p false env.evpOk old w.keyStore (inOrder w.mapMasterKeys) ≠ none

theorem isLocked_true_iff (s : CCryptoKeyStore) : s.isLocked true = true ↔ mode s = .locked := by
  unfold mode
  split_ifs with h <;> simp [h]

theorem isLocked_false_iff (s : CCryptoKeyStore) : s.isLocked false = true ↔ mode s ≠ .unlocked := by
  cases hf : s.fUseCrypto <;> cases hm : s.fOnlyMixingAllowed <;> cases hv : s.vMasterKey <;>
    simp [mode, CCryptoKeyStore.isLocked, hf, hm, hv]

section

variable {s : CCryptoKeyStore} (hs : s.fUseCrypto = true)
include hs

theorem mode_eq : mode s =
    if s.vMasterKey = [] then .locked else if s.fOnlyMixingAllowed then .mixingOnly else .unlocked := by
  cases hv : s.vMasterKey <;> cases hm : s.fOnlyMixingAllowed <;>
    simp [mode, CCryptoKeyStore.isLocked, hs, hv, hm]

theorem lock_eq (fAllowMixing : Bool) : s.lock fAllowMixing = (true, { s with
    vMasterKey := if fAllowMixing then s.vMasterKey else []
    fOnlyMixingAllowed := fAllowMixing }) := by
  cases fAllowMixing <;> simp [CCryptoKeyStore.lock, CCryptoKeyStore.setCrypted_of_crypted hs]

theorem mode_lock (fAllowMixing : Bool) :
    mode (s.lock fAllowMixing).2 = if fAllowMixing && mode s != .locked then .mixingOnly else .locked := by
  rw [lock_eq hs, mode_eq hs, mode_eq (by exact hs)]
  cases fAllowMixing with
  | false => simp
  | true =>
    cases s.vMasterKey with
    | nil => simp
    | cons b bs => cases s.fOnlyMixingAllowed <;> simp

theorem opened_eq (vMasterKey : Bytes) : opened s vMasterKey false =
    { s with vMasterKey, fDecryptionThoroughlyChecked := true, fOnlyMixingAllowed := false } := by
  rw [opened, CCryptoKeyStore.setCrypted_of_crypted hs]

theorem mode_opened (hsize : vMasterKey.length = 32) :
    mode (opened s vMasterKey false) = .unlocked := by
  have hne : vMasterKey ≠ [] := List.ne_nil_of_length_pos (by omega)
  rw [opened_eq hs, mode_eq (by exact hs)]
  simp [hne]

/-- The wallet is open for everything if a master key was found, and stays in its mode otherwise. -/
theorem mode_of_leaves {pass : Bytes}
    (hfound : found = opening p skips evpOk pass s keys) (hleaves : Leaves s s' found) :
    s'.fUseCrypto = true ∧ mode s' = if found = none then mode s else .unlocked := by
  cases found with
  | none =>
    have hs' : s' = s := hleaves.elim (fun h => h) fun h => h.trans
      (by rw [CCryptoKeyStore.setCrypted_of_crypted hs])
    subst hs'
    exact ⟨hs, by simp⟩
  | some f =>
    obtain ⟨id, key, vMasterKey⟩ := f
    obtain ⟨-, hfits, -⟩ := opening_eq_some hfound.symm
    rw [show s' = opened s vMasterKey false from hleaves]
    refine ⟨by rw [opened_eq hs]; exact hs, ?_⟩
    rw [mode_opened hs (length_of_fits hfits)]
    simp

end

variable {p}

/-- A change that fails leaves the wallet open, and one that succeeds locks it again if it was
locked. -/
theorem mode_changeRecord {pass : Bytes} (hs : w.keyStore.fUseCrypto = true)
    (hset : setKeyFromPassphrase p evpOk pass key = some k) (env : Env) (new : Bytes)
    (fWasLocked : Bool) (id : Nat) (vMasterKey : Bytes) :
    (changeRecord p env new fWasLocked id key vMasterKey w).2.keyStore.fUseCrypto = true ∧
      mode (changeRecord p env new fWasLocked id key vMasterKey w).2.keyStore =
        if fWasLocked && env.evpOkNew && env.encryptLeaves.isNone then .locked else mode w.keyStore := by
  have hlock : (w.keyStore.lock false).2.fUseCrypto = true ∧ mode (w.keyStore.lock false).2 = .locked := by
    rw [mode_lock hs, lock_eq hs]
    exact ⟨hs, rfl⟩
  simp only [changeRecord, reencrypt, setKeyFromPassphrase_new hset]
  cases env.evpOkNew with
  | false => simp [hs]
  | true =>
    cases env.encryptLeaves with
    | some left => simp [hs]
    | none =>
      cases env.writes <;> cases fWasLocked <;> simp [hs, CWallet.lock, hlock]

theorem changeWalletPassphrase_mode (hs : w.keyStore.fUseCrypto = true)
    (hstep : w.changeWalletPassphrase p env old new = some (ret, w')) :
    w'.keyStore.fUseCrypto = true ∧ (mode w'.keyStore = mode w.keyStore ↔
      KeepsMode p w (.changeWalletPassphrase env old new ret)) := by
  simp only [CWallet.changeWalletPassphrase, Option.bind_eq_bind, Option.bind_eq_some_iff] at hstep
  obtain ⟨⟨found, s'⟩, hloop, heq⟩ := hstep
  have hlock := mode_lock hs false
  have hlocked : (w.lock false).2.keyStore.fUseCrypto = true := by
    simp only [CWallet.lock, lock_eq hs]
    exact hs
  obtain ⟨hfound, hleaves⟩ := unlockEach_some hloop
  obtain ⟨hs', hmode⟩ := mode_of_leaves p hlocked hfound hleaves
  have hsame : found = opening p false env.evpOk old w.keyStore (inOrder w.mapMasterKeys) :=
    hfound.trans (opening_congr (fits_lock w.keyStore false) ..)
  have hwas : w.keyStore.isLocked false = (mode w.keyStore != .unlocked) := by
    rw [Bool.eq_iff_iff, isLocked_false_iff, bne_iff_ne]
  simp only [KeepsMode, ← hsame]
  cases found with
  | none =>
    obtain ⟨-, rfl⟩ := Prod.mk.inj (Option.some.inj heq)
    refine ⟨hs', ?_⟩
    rw [if_pos rfl] at hmode
    have hnow : mode s' = .locked := hmode.trans hlock
    simp only [hnow]
    cases mode w.keyStore <;> simp
  | some f =>
    obtain ⟨id, key, vMasterKey⟩ := f
    obtain ⟨-, -, k, hset, -⟩ := opening_eq_some hsame.symm
    rw [if_neg (by simp)] at hmode
    obtain ⟨hcrypto, hnow⟩ := mode_changeRecord (w := { (w.lock false).2 with keyStore := s' }) hs' hset env
      new (w.keyStore.isLocked false) id vMasterKey
    have hw' := congrArg Prod.snd (Option.some.inj heq)
    rw [hw'] at hnow hcrypto
    refine ⟨hcrypto, ?_⟩
    rw [hnow, hmode, hwas]
    cases mode w.keyStore <;> cases env.evpOkNew <;> cases env.encryptLeaves <;> simp

theorem step_mode (hs : w.keyStore.fUseCrypto = true) (hstep : Step p w e w') :
    w'.keyStore.fUseCrypto = true ∧
      (mode w'.keyStore = (mode w.keyStore).next e ↔ KeepsMode p w e) := by
  cases e with
  | unlock evpOk pass fForMixingOnly ret =>
    simp only [Step, CWallet.unlock, Option.bind_eq_bind, Option.bind_eq_some_iff, Option.some.injEq] at hstep
    obtain ⟨⟨found, s'⟩, hloop, heq⟩ := hstep
    obtain ⟨rfl, rfl⟩ := Prod.mk.inj heq
    obtain ⟨hfound, hleaves⟩ := unlockEach_some hloop
    obtain ⟨hs', hmode⟩ := mode_of_leaves p hs hfound hleaves
    refine ⟨hs', ?_⟩
    simp only [KeepsMode, Mode.next, hmode, ← hfound]
    cases found <;> cases fForMixingOnly <;> simp
  | lock fAllowMixing ret =>
    simp only [Step, CWallet.lock] at hstep
    obtain ⟨-, rfl⟩ := Prod.mk.inj hstep
    refine ⟨by rw [lock_eq hs]; exact hs, ?_⟩
    simp only [KeepsMode, Mode.next, mode_lock hs]
  | changeWalletPassphrase env old new ret => exact changeWalletPassphrase_mode hs hstep

/-- A call follows the automaton exactly under `KeepsMode`. In runs where every call does, the two
lock queries give the state of the automaton. -/
theorem modes_follow_automaton {w : CWallet} (hw : w ∈ (wallet p).start) :
    (∀ events w', Run (wallet p) w events w' → ∀ e w'', (wallet p).next w' e w'' →
      (mode w''.keyStore = (mode w'.keyStore).next e ↔ KeepsMode p w' e)) ∧
    ∀ events w', Run ((wallet p).under (KeepsMode p)) w events w' →
      (w'.keyStore.isLocked true = true ↔ events.foldl Mode.next .locked = .locked) ∧
      (w'.keyStore.isLocked false = true ↔ events.foldl Mode.next .locked ≠ .unlocked) := by
  have hcrypted {events : List Event} {w' : CWallet} (h : Run (wallet p) w events w') :
      w'.keyStore.fUseCrypto = true := by
    induction h with
    | nil => exact hw.1
    | snoc _ hstep ih => exact (step_mode ih hstep).1
  refine ⟨fun events w' hrun e w'' hstep => (step_mode (hcrypted hrun) hstep).2, fun events w' hrun => ?_⟩
  have hmode : mode w'.keyStore = events.foldl Mode.next .locked := by
    induction hrun with
    | nil => exact hw.2
    | @snoc v v' events e hrun hstep ih =>
      rw [List.foldl_append, List.foldl_cons, List.foldl_nil, ← ih]
      exact (step_mode (hcrypted hrun.of_under) hstep.2).2.mpr hstep.1
  rw [← hmode]
  exact ⟨isLocked_true_iff _, isLocked_false_iff _⟩

theorem sampleWallet_start : sampleWallet ∈ (wallet tablePlatform).start := ⟨rfl, by decide⟩

theorem modes_follow_unlocked :
    ∃ w', Run ((wallet tablePlatform).under (KeepsMode tablePlatform)) sampleWallet
        [.unlock (fun _ => true) [112] false true] w' ∧ w'.keyStore.isLocked false = false := by
  have hstep : (wallet tablePlatform).next sampleWallet (.unlock (fun _ => true) [112] false true)
      { sampleWallet with keyStore := opened sampleWallet.keyStore sampleMaster false } := by
    simp only [wallet, Step, CWallet.unlock, sample_unlockEach true rfl rfl]
    rfl
  have hkeeps : KeepsMode tablePlatform sampleWallet (.unlock (fun _ => true) [112] false true) := Or.inl rfl
  have hrun := Run.snoc (T := (wallet tablePlatform).under (KeepsMode tablePlatform)) .nil ⟨hkeeps, hstep⟩
  have hread := ((modes_follow_automaton sampleWallet_start).2 _ _ hrun).2
  exact ⟨_, hrun, Bool.eq_false_iff.mpr fun h => hread.mp h rfl⟩

/-- Unlocking for mixing only opens the wallet for everything, and a change with a wrong passphrase
locks it. -/
theorem mixing_only_unlocks_all :
    (∃ w', (wallet tablePlatform).next sampleWallet (.unlock (fun _ => true) [112] true true) w' ∧
      mode w'.keyStore = .unlocked) ∧
    ∃ w env w', mode w.keyStore = .unlocked ∧
      (wallet tablePlatform).next w (.changeWalletPassphrase env [] [112] false) w' ∧
      mode w'.keyStore = .locked := by
  have hopened : mode (opened sampleWallet.keyStore sampleMaster false) = .unlocked := mode_opened rfl rfl
  refine ⟨⟨{ sampleWallet with keyStore := opened sampleWallet.keyStore sampleMaster false }, ?_, hopened⟩,
    { sampleWallet with keyStore := opened sampleWallet.keyStore sampleMaster false },
    ⟨fun _ => true, true, none, true, fun _ => 0⟩,
    { sampleWallet with
      keyStore := ((opened sampleWallet.keyStore sampleMaster false).lock false).2 }, hopened, ?_, ?_⟩
  · simp only [wallet, Step, CWallet.unlock, sample_unlockEach true rfl rfl]
    rfl
  · have hdec : decryptRecord tablePlatform false true [] sampleRecord = none := by decide +kernel
    have hord : inOrder sampleWallet.mapMasterKeys = [(1, sampleRecord)] := inOrder_singleton _ _
    simp only [wallet, Step, CWallet.changeWalletPassphrase, CWallet.lock, hord, unlockEach, hdec]
    rfl
  · rw [mode_lock rfl, hopened]
    rfl

end Utsuite.LockMode
