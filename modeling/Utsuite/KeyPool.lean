import Utsuite.CurveKeys
import Utsuite.Transitions

namespace Utsuite.KeyPool

open ByteWords CurveKeys Hoare Transitions Wallet Function

variable {S : Setting}

variable {w : CWallet}

def newKey (S : Setting) (w : CWallet) : CPubKey := S.fn.getPubKey (S.makeNewKey w.generated)

def Generated (S : Setting) (w : CWallet) (pk : CPubKey) : Prop :=
  ∃ n < w.generated, S.fn.getPubKey (S.makeNewKey n) = pk

def Fresh (S : Setting) : Prop := Function.Injective fun n => S.fn.getPubKey (S.makeNewKey n)

theorem newKey_not_generated (hfresh : Fresh S) (w : CWallet) : ¬Generated S w (newKey S w) := by
  rintro ⟨n, hn, heq⟩
  have := hfresh heq
  omega

def Recorded (w : CWallet) (pk : CPubKey) : Prop :=
  pk ∈ w.db.key ∨ pk ∈ w.db.ckey ∨ pk ∈ w.db.keymeta

def newRecords (S : Setting) (w : CWallet) : Records :=
  let secret := S.makeNewKey w.generated
  let pubkey := newKey S w
  if w.fUseCrypto then
    { w.db with
      keymeta := w.db.keymeta.insert pubkey (S.creationTime w.generated)
      ckey := w.db.ckey.insert pubkey secret
      key := w.db.key.erase pubkey }
  else
    { w.db with
      keymeta := w.db.keymeta.insert pubkey (S.creationTime w.generated)
      key := w.db.key.insert pubkey
        (S.fn.getPrivKey secret, S.fn.hash (pubkey ++ S.fn.getPrivKey secret)) }

def withNewKey (S : Setting) (w : CWallet) : CWallet :=
  { w with
    generated := w.generated + 1
    mapKeys := w.mapKeys.insert (S.fn.getID (newKey S w)) (S.makeNewKey w.generated)
    mapKeyMetadata :=
      w.mapKeyMetadata.insert (S.fn.getID (newKey S w)) (S.creationTime w.generated)
    db := newRecords S w }

theorem generateNewKey_eq (hunlocked : w.isLocked = false) (hnew : ¬Recorded w (newKey S w)) :
    generateNewKey S w = .ok (newKey S w) (withNewKey S w) := by
  simp only [Recorded, not_or, newKey] at hnew
  obtain ⟨hkey, hckey, hmeta⟩ := hnew
  cases hcrypto : w.fUseCrypto with
  | false =>
    simp [generateNewKey, addKeyPubKey, keyMetadata, writeKey, CWallet.isLocked, hcrypto,
      AList.lookup_insert, hkey, hmeta, withNewKey, newRecords, newKey]
  | true =>
    have hlocked : w.locked = false := by simpa [CWallet.isLocked, hcrypto] using hunlocked
    simp [generateNewKey, addKeyPubKey, keyMetadata, writeCryptedKey, CWallet.isLocked, hcrypto,
      hlocked, AList.lookup_insert, hckey, withNewKey, newRecords, newKey]

/-- Indices in use have records, an index is held by one holder only, and no key was handed out
twice. -/
structure Safe (S : Setting) (w : CWallet) : Prop where
  index_pos : ∀ i ∈ w.setKeyPool, 0 < i
  index_recorded : ∀ i ∈ w.setKeyPool, ∃ r, w.db.pool.lookup i = some r
  held_pos : ∀ h, (w.reserveKeys h).nIndex ≠ -1 → 0 < (w.reserveKeys h).nIndex
  held_free : ∀ h, (w.reserveKeys h).nIndex ∉ w.setKeyPool
  held_recorded : ∀ h, (w.reserveKeys h).nIndex ≠ -1 →
    ∃ r, w.db.pool.lookup (w.reserveKeys h).nIndex = some r ∧
      (w.reserveKeys h).vchPubKey = some r.vchPubKey
  held_once : ∀ h h', h ≠ h' → (w.reserveKeys h).nIndex ≠ -1 →
    (w.reserveKeys h).nIndex ≠ (w.reserveKeys h').nIndex
  pool_injective : ∀ i j r r', w.db.pool.lookup i = some r → w.db.pool.lookup j = some r' →
    r.vchPubKey = r'.vchPubKey → i = j
  pool_generated : ∀ i r, w.db.pool.lookup i = some r → Generated S w r.vchPubKey
  pool_known : ∀ i r, w.db.pool.lookup i = some r → S.fn.getID r.vchPubKey ∈ w.mapKeys
  pool_kept : ∀ i r, w.db.pool.lookup i = some r → r.vchPubKey ∉ w.handedOut
  handed_once : w.handedOut.Nodup
  handed_generated : ∀ pk ∈ w.handedOut, Generated S w pk
  recorded_generated : ∀ pk, Recorded w pk → Generated S w pk

theorem empty_safe (S : Setting) (fUseCrypto locked : Bool) :
    Safe S (CWallet.empty fUseCrypto locked) := by
  constructor <;> simp [CWallet.empty, Records.empty, Recorded]

theorem Safe.newKey_not_recorded (hfresh : Fresh S) (h : Safe S w) :
    ¬Recorded w (newKey S w) :=
  fun hrec => newKey_not_generated hfresh w (h.recorded_generated _ hrec)

theorem generated_withNewKey (h : Generated S w pk) : Generated S (withNewKey S w) pk := by
  obtain ⟨n, hn, heq⟩ := h
  exact ⟨n, Nat.lt_succ_of_lt hn, heq⟩

theorem newKey_generated (w : CWallet) : Generated S (withNewKey S w) (newKey S w) :=
  ⟨w.generated, Nat.lt_succ_self _, rfl⟩

theorem pool_withNewKey (w : CWallet) : (withNewKey S w).db.pool = w.db.pool := by
  cases h : w.fUseCrypto <;> simp [withNewKey, newRecords, h]

theorem recorded_withNewKey (h : Recorded (withNewKey S w) pk) :
    pk = newKey S w ∨ Recorded w pk := by
  cases hc : w.fUseCrypto <;> simp only [Recorded, withNewKey, newRecords, hc] at h ⊢ <;>
    simp at h <;> tauto

theorem withNewKey_safe (h : Safe S w) : Safe S (withNewKey S w) where
  index_pos := h.index_pos
  index_recorded i hi := by
    rw [pool_withNewKey]
    exact h.index_recorded i hi
  held_pos := h.held_pos
  held_free := h.held_free
  held_recorded i hi := by
    rw [pool_withNewKey]
    exact h.held_recorded i hi
  held_once := h.held_once
  pool_injective := by
    rw [pool_withNewKey]
    exact h.pool_injective
  pool_generated i r hr := by
    rw [pool_withNewKey] at hr
    exact generated_withNewKey (h.pool_generated i r hr)
  pool_known i r hr := by
    rw [pool_withNewKey] at hr
    exact AList.mem_insert _ |>.mpr (.inr (h.pool_known i r hr))
  pool_kept i r hr := by
    rw [pool_withNewKey] at hr
    exact h.pool_kept i r hr
  handed_once := h.handed_once
  handed_generated pk hpk := generated_withNewKey (h.handed_generated pk hpk)
  recorded_generated pk hpk := by
    obtain rfl | hold := recorded_withNewKey hpk
    · exact newKey_generated w
    · exact generated_withNewKey (h.recorded_generated pk hold)

def withPoolKey (S : Setting) (w : CWallet) (nIndex : Int) : CWallet :=
  { withNewKey S w with
    db := { newRecords S w with
      pool := w.db.pool.insert nIndex ⟨S.poolTime w.generated, newKey S w⟩ }
    setKeyPool := insert nIndex w.setKeyPool }

theorem addPoolKey_eq (hfresh : Fresh S) (h : Safe S w) (hunlocked : w.isLocked = false)
    (nIndex : Int) :
    addPoolKey S nIndex w = .ok () (withPoolKey S w nIndex) := by
  have hgen := generateNewKey_eq hunlocked (h.newKey_not_recorded hfresh)
  simp only [addPoolKey, get_bind_apply]
  rw [bind_apply_ok hgen, modify_apply]
  simp only [withPoolKey, pool_withNewKey]
  rfl

theorem Safe.putBack (h : Safe S w) (hpos : 0 < i) (hr : w.db.pool.lookup i = some r)
    (hfree : ∀ k, (w.reserveKeys k).nIndex ≠ i) :
    Safe S { w with setKeyPool := insert i w.setKeyPool } :=
  { h with
    index_pos := fun j hj => by
      obtain rfl | hj := Finset.mem_insert.mp hj
      · exact hpos
      · exact h.index_pos j hj
    index_recorded := fun j hj => by
      obtain rfl | hj := Finset.mem_insert.mp hj
      · exact ⟨r, hr⟩
      · exact h.index_recorded j hj
    held_free := fun k hk => by
      obtain heq | hk := Finset.mem_insert.mp hk
      · exact hfree k heq
      · exact h.held_free k hk }

theorem Safe.newKey_not_pooled (hfresh : Fresh S) (h : Safe S w) (i : Int) (r : CKeyPool)
    (hr : (withNewKey S w).db.pool.lookup i = some r) : r.vchPubKey ≠ newKey S w := by
  intro heq
  rw [pool_withNewKey] at hr
  exact newKey_not_generated hfresh w (heq ▸ h.pool_generated i r hr)

theorem Safe.addRecord (h : Safe S w) (hgen : Generated S w r.vchPubKey)
    (hknown : S.fn.getID r.vchPubKey ∈ w.mapKeys)
    (hpool : ∀ j r', w.db.pool.lookup j = some r' → r'.vchPubKey ≠ r.vchPubKey)
    (hnew : r.vchPubKey ∉ w.handedOut) (hfree : ∀ k, (w.reserveKeys k).nIndex ≠ i) :
    Safe S { w with db := { w.db with pool := w.db.pool.insert i r } } := by
  have hlookup : ∀ j r', (w.db.pool.insert i r).lookup j = some r' →
      (j = i ∧ r' = r) ∨ w.db.pool.lookup j = some r' := by
    intro j r' hr
    by_cases hj : j = i
    · subst hj
      rw [AList.lookup_insert] at hr
      exact .inl ⟨rfl, (Option.some.inj hr).symm⟩
    · exact .inr ((AList.lookup_insert_ne hj).symm.trans hr)
  refine { h with
    index_recorded := ?_
    held_recorded := ?_
    pool_injective := ?_
    pool_generated := ?_
    pool_known := ?_
    pool_kept := ?_ }
  · intro j hj
    by_cases heq : j = i
    · subst heq
      exact ⟨r, AList.lookup_insert _⟩
    · obtain ⟨r', hr⟩ := h.index_recorded j hj
      exact ⟨r', (AList.lookup_insert_ne heq).trans hr⟩
  · intro k hk
    obtain ⟨r', hr, hpk⟩ := h.held_recorded k hk
    exact ⟨r', (AList.lookup_insert_ne (hfree k)).trans hr, hpk⟩
  · intro j j' r₁ r₂ h₁ h₂ heq
    obtain ⟨hj, rfl⟩ | hj := hlookup j r₁ h₁ <;> obtain ⟨hj', rfl⟩ | hj' := hlookup j' r₂ h₂
    · exact hj.trans hj'.symm
    · exact absurd heq.symm (hpool j' r₂ hj')
    · exact absurd heq (hpool j r₁ hj)
    · exact h.pool_injective j j' r₁ r₂ hj hj' heq
  all_goals
    intro j r' hr
    obtain ⟨-, rfl⟩ | hr := hlookup j r' hr
  · exact hgen
  · exact h.pool_generated j r' hr
  · exact hknown
  · exact h.pool_known j r' hr
  · exact hnew
  · exact h.pool_kept j r' hr

theorem withPoolKey_safe (hfresh : Fresh S) (h : Safe S w) (hpos : 0 < nIndex)
    (hfree : ∀ k, (w.reserveKeys k).nIndex ≠ nIndex) : Safe S (withPoolKey S w nIndex) := by
  have hnot := newKey_not_generated hfresh w
  have hadd := (withNewKey_safe h).addRecord (r := ⟨S.poolTime w.generated, newKey S w⟩)
    (newKey_generated w) (AList.mem_insert _ |>.mpr (.inl rfl)) (h.newKey_not_pooled hfresh)
    (fun hmem => hnot (h.handed_generated _ hmem)) hfree
  rw [pool_withNewKey] at hadd
  exact hadd.putBack hpos (AList.lookup_insert _) hfree

theorem lt_nEnd (hi : i ∈ s) : i < nEnd s := by
  have hne : s.Nonempty := ⟨i, hi⟩
  have hle := s.le_max' i hi
  rw [nEnd, dif_pos hne]
  omega

theorem nEnd_pos (h : ∀ i ∈ s, 0 < i) : 0 < nEnd s := by
  by_cases hne : s.Nonempty
  · obtain ⟨i, hi⟩ := hne
    exact (h i hi).trans (lt_nEnd hi)
  · rw [nEnd, dif_neg hne]
    decide

theorem nEnd_insert (s : Finset Int) : nEnd (insert (nEnd s) s) = nEnd s + 1 := by
  have hne : (insert (nEnd s) s).Nonempty := Finset.insert_nonempty _ _
  rw [nEnd, dif_pos hne]
  congr 1
  refine le_antisymm (Finset.max'_le _ _ _ fun i hi => ?_)
    (Finset.le_max' _ _ (Finset.mem_insert_self _ _))
  obtain rfl | hi := Finset.mem_insert.mp hi
  · exact le_rfl
  · exact (lt_nEnd hi).le

theorem card_insert_nEnd (s : Finset Int) : (insert (nEnd s) s).card = s.card + 1 :=
  Finset.card_insert_of_notMem fun h => lt_irrefl _ (lt_nEnd h)

def Refills (w : CWallet) (target : Nat) (i : Int) : Prop :=
  nEnd w.setKeyPool ≤ i ∧ i < nEnd w.setKeyPool + (target - w.setKeyPool.card : Nat)

structure Refilled (S : Setting) (w w' : CWallet) : Prop where
  safe : Safe S w'
  reserveKeys : w'.reserveKeys = w.reserveKeys
  isLocked : w'.isLocked = w.isLocked

theorem refills_withPoolKey (h : Refills (withPoolKey S w (nEnd w.setKeyPool)) target i) :
    Refills w target i := by
  have hset : (withPoolKey S w (nEnd w.setKeyPool)).setKeyPool =
      insert (nEnd w.setKeyPool) w.setKeyPool := rfl
  rw [Refills, hset, nEnd_insert, card_insert_nEnd] at h
  rw [Refills]
  omega

theorem topUpLoop_refilled (hfresh : Fresh S) (target rounds : Nat) (h : Safe S w)
    (hunlocked : w.isLocked = false) (hfree : ∀ k, ¬Refills w target (w.reserveKeys k).nIndex) :
    ∃ w', topUpLoop S target rounds w = .ok () w' ∧ Refilled S w w' ∧
      (target ≤ w.setKeyPool.card + rounds → target ≤ w'.setKeyPool.card) := by
  induction rounds generalizing w with
  | zero => exact ⟨w, rfl, ⟨h, rfl, rfl⟩, id⟩
  | succ rounds ih =>
    simp only [topUpLoop, get_bind_apply]
    by_cases hcard : w.setKeyPool.card < target
    · have hnow : ∀ k, (w.reserveKeys k).nIndex ≠ nEnd w.setKeyPool := by
        intro k heq
        apply hfree k
        rw [heq]
        exact ⟨le_rfl, by omega⟩
      have hsafe := withPoolKey_safe hfresh h (nEnd_pos h.index_pos) hnow
      obtain ⟨w', hrun, ⟨hsafe', hres, hlock⟩, hfull⟩ :=
        ih hsafe hunlocked fun k hk => hfree k (refills_withPoolKey hk)
      refine ⟨w', ?_, ⟨hsafe', hres, hlock⟩, fun hrounds => hfull ?_⟩
      · rw [if_pos hcard, bind_apply_ok (addPoolKey_eq hfresh h hunlocked _), hrun]
      · change target ≤ (insert (nEnd w.setKeyPool) w.setKeyPool).card + rounds
        rw [card_insert_nEnd]
        omega
    · rw [if_neg hcard]
      exact ⟨w, rfl, ⟨h, rfl, rfl⟩, fun _ => Nat.le_of_not_lt hcard⟩

def NoneHeld (w : CWallet) (target : Nat) : Prop :=
  w.isLocked = false → ∀ k, ¬Refills w target (w.reserveKeys k).nIndex

theorem topUpKeyPool_refilled (hfresh : Fresh S) (kpSize : UInt32) (h : Safe S w)
    (hfree : NoneHeld w (targetSize S kpSize)) :
    ∃ b w', topUpKeyPool S kpSize w = .ok b w' ∧ Refilled S w w' := by
  simp only [topUpKeyPool, get_bind_apply]
  cases hlocked : w.isLocked with
  | true => exact ⟨false, w, rfl, h, rfl, rfl⟩
  | false =>
    obtain ⟨w', hrun, href, -⟩ := topUpLoop_refilled hfresh (targetSize S kpSize)
      (targetSize S kpSize) h hlocked (hfree hlocked)
    refine ⟨true, w', ?_, href⟩
    simp only [Bool.false_eq_true, if_false]
    rw [bind_apply_ok hrun]
    rfl

theorem topUpIfUnlocked_refilled (hfresh : Fresh S) (h : Safe S w)
    (hfree : NoneHeld w (targetSize S 0)) :
    ∃ w', topUpIfUnlocked S w = .ok () w' ∧ Refilled S w w' := by
  simp only [topUpIfUnlocked, get_bind_apply]
  cases hlocked : w.isLocked with
  | true => exact ⟨w, rfl, h, rfl, rfl⟩
  | false =>
    obtain ⟨b, w', hrun, href⟩ := topUpKeyPool_refilled hfresh 0 h hfree
    exact ⟨w', bind_apply_ok (f := fun _ => pure ()) hrun, href⟩

theorem takeOldest_spec {assign : Int → WalletM Unit}
    {put : Int → (Nat → CReserveKey) → Nat → CReserveKey}
    (hassign : ∀ i w, assign i w = .ok () { w with reserveKeys := put i w.reserveKeys })
    (hrecorded : ∀ i ∈ w.setKeyPool, ∃ r, w.db.pool.lookup i = some r)
    (hknown : ∀ i r, w.db.pool.lookup i = some r → S.fn.getID r.vchPubKey ∈ w.mapKeys) :
    (w.setKeyPool = ∅ ∧ takeOldest S assign w = .ok (-1, none) w) ∨
    ∃ i r, i ∈ w.setKeyPool ∧ w.db.pool.lookup i = some r ∧
      takeOldest S assign w = .ok (i, some r)
        { w with
          setKeyPool := w.setKeyPool.erase i
          reserveKeys := put i w.reserveKeys } := by
  simp only [takeOldest, get_bind_apply]
  by_cases hne : w.setKeyPool.Nonempty
  · right
    have hmem := w.setKeyPool.min'_mem hne
    obtain ⟨r, hr⟩ := hrecorded _ hmem
    have hhave : w.haveKey (S.fn.getID r.vchPubKey) = true := decide_eq_true (hknown _ r hr)
    refine ⟨_, r, hmem, hr, ?_⟩
    rw [dif_pos hne, bind_apply_ok (hassign _ w), modify_bind_apply, hr]
    simp only [hhave, if_true]
    rfl
  · left
    rw [dif_neg hne]
    exact ⟨Finset.not_nonempty_iff_eq_empty.mp hne, rfl⟩

theorem reserveKeyFromKeyPool_eq {assign : Int → WalletM Unit}
    {put : Int → (Nat → CReserveKey) → Nat → CReserveKey}
    (hassign : ∀ i w, assign i w = .ok () { w with reserveKeys := put i w.reserveKeys })
    (hput : put (-1) w.reserveKeys = w.reserveKeys) (hrun : topUpIfUnlocked S w = .ok () w₁) :
    reserveKeyFromKeyPool S assign w = takeOldest S assign w₁ := by
  have hstart : assign (-1) w = .ok () w := by rw [hassign, hput]
  rw [reserveKeyFromKeyPool, bind_apply_ok hstart, bind_apply_ok hrun]

theorem reserveKeyFromKeyPool_spec (hfresh : Fresh S) (assign : Int → WalletM Unit)
    (put : Int → (Nat → CReserveKey) → Nat → CReserveKey)
    (hassign : ∀ i w, assign i w = .ok () { w with reserveKeys := put i w.reserveKeys })
    (hput : put (-1) w.reserveKeys = w.reserveKeys) (h : Safe S w)
    (hfree : NoneHeld w (targetSize S 0)) :
    ∃ w₁, Refilled S w w₁ ∧
      (reserveKeyFromKeyPool S assign w = .ok (-1, none) w₁ ∨
      ∃ i r, i ∈ w₁.setKeyPool ∧ w₁.db.pool.lookup i = some r ∧
        reserveKeyFromKeyPool S assign w = .ok (i, some r)
          { w₁ with
            setKeyPool := w₁.setKeyPool.erase i
            reserveKeys := put i w₁.reserveKeys }) := by
  obtain ⟨w₁, hrun, href⟩ := topUpIfUnlocked_refilled hfresh h hfree
  rw [reserveKeyFromKeyPool_eq hassign hput hrun]
  refine ⟨w₁, href, ?_⟩
  exact (takeOldest_spec hassign href.safe.index_recorded href.safe.pool_known).imp_left And.right

theorem Safe.restrict (h : Safe S w) (hset : s ⊆ w.setKeyPool)
    (hsub : ∀ i r, pool.lookup i = some r → w.db.pool.lookup i = some r)
    (hkeep : ∀ i, i ∈ s ∨ (∃ k, (w.reserveKeys k).nIndex = i) →
      pool.lookup i = w.db.pool.lookup i) :
    Safe S { w with setKeyPool := s, db := { w.db with pool := pool } } :=
  { h with
    index_pos := fun i hi => h.index_pos i (hset hi)
    index_recorded := fun i hi => hkeep i (.inl hi) ▸ h.index_recorded i (hset hi)
    held_free := fun k hk => h.held_free k (hset hk)
    held_recorded := fun k hk => hkeep _ (.inr ⟨k, rfl⟩) ▸ h.held_recorded k hk
    pool_injective := fun i j r r' hr hr' =>
      h.pool_injective i j r r' (hsub i r hr) (hsub j r' hr')
    pool_generated := fun i r hr => h.pool_generated i r (hsub i r hr)
    pool_known := fun i r hr => h.pool_known i r (hsub i r hr)
    pool_kept := fun i r hr => h.pool_kept i r (hsub i r hr) }

theorem Safe.remove (h : Safe S w) (i : Int) :
    Safe S { w with setKeyPool := w.setKeyPool.erase i } :=
  h.restrict (Finset.erase_subset i _) (fun _ _ => id) fun _ _ => rfl

theorem Safe.record (h : Safe S w) (hgen : Generated S w pk)
    (hpool : ∀ i r, w.db.pool.lookup i = some r → r.vchPubKey ≠ pk) (hnew : pk ∉ w.handedOut) :
    Safe S { w with handedOut := pk :: w.handedOut } :=
  { h with
    pool_kept := fun i r hr hmem => by
      obtain heq | hmem := List.mem_cons.mp hmem
      · exact hpool i r hr heq
      · exact h.pool_kept i r hr hmem
    handed_once := List.nodup_cons.mpr ⟨hnew, h.handed_once⟩
    handed_generated := fun pk' hpk => by
      obtain rfl | hpk := List.mem_cons.mp hpk
      · exact hgen
      · exact h.handed_generated pk' hpk }

theorem Safe.handOut (h : Safe S w) (hr : w.db.pool.lookup i = some r) (hset : i ∉ w.setKeyPool)
    (hfree : ∀ k, (w.reserveKeys k).nIndex ≠ i) :
    Safe S { w with
      db := { w.db with pool := w.db.pool.erase i }
      handedOut := r.vchPubKey :: w.handedOut } := by
  have hlookup : ∀ j r', (w.db.pool.erase i).lookup j = some r' →
      j ≠ i ∧ w.db.pool.lookup j = some r' := by
    intro j r' hj
    have hne : j ≠ i := by
      rintro rfl
      rw [AList.lookup_erase] at hj
      cases hj
    exact ⟨hne, (AList.lookup_erase_ne hne).symm.trans hj⟩
  have herased : Safe S { w with db := { w.db with pool := w.db.pool.erase i } } :=
    h.restrict Finset.Subset.rfl (fun j r' hj => (hlookup j r' hj).2) fun j hj =>
      AList.lookup_erase_ne <| by
        rintro rfl
        exact hj.elim hset fun ⟨k, hk⟩ => hfree k hk
  refine herased.record (h.pool_generated i r hr) (fun j r' hj heq => ?_) (h.pool_kept i r hr)
  obtain ⟨hne, hj⟩ := hlookup j r' hj
  exact hne (h.pool_injective j i r' r hj hr heq)

def MayHold (w : CWallet) (holder : Nat) (v : CReserveKey) : Prop :=
  v.nIndex = -1 ∨
    (0 < v.nIndex ∧ v.nIndex ∉ w.setKeyPool ∧
      (∃ r, w.db.pool.lookup v.nIndex = some r ∧ v.vchPubKey = some r.vchPubKey) ∧
      ∀ k, k ≠ holder → (w.reserveKeys k).nIndex ≠ v.nIndex)

def withHolder (w : CWallet) (holder : Nat) (v : CReserveKey) : CWallet :=
  { w with reserveKeys := update w.reserveKeys holder v }

@[simp] theorem withHolder_self (w : CWallet) (holder : Nat) (v : CReserveKey) :
    (withHolder w holder v).reserveKeys holder = v :=
  update_self ..

theorem withHolder_of_ne (w : CWallet) (v : CReserveKey) (h : k ≠ holder) :
    (withHolder w holder v).reserveKeys k = w.reserveKeys k :=
  update_of_ne h _ _

theorem Safe.hold (h : Safe S w) (hv : MayHold w holder v) : Safe S (withHolder w holder v) := by
  have hself := withHolder_self w holder v
  have hother : ∀ k, k ≠ holder → (withHolder w holder v).reserveKeys k = w.reserveKeys k :=
    fun k hk => withHolder_of_ne w v hk
  exact { h with
    held_pos := fun k hk => by
      by_cases heq : k = holder
      · subst heq
        rw [hself] at hk ⊢
        exact (hv.resolve_left hk).1
      · rw [hother k heq] at hk ⊢
        exact h.held_pos k hk
    held_free := fun k => by
      by_cases heq : k = holder
      · subst heq
        rw [hself]
        obtain hnone | hsome := hv
        · intro hmem
          have := h.index_pos _ hmem
          omega
        · exact hsome.2.1
      · rw [hother k heq]
        exact h.held_free k
    held_recorded := fun k hk => by
      by_cases heq : k = holder
      · subst heq
        rw [hself] at hk ⊢
        exact (hv.resolve_left hk).2.2.1
      · rw [hother k heq] at hk ⊢
        exact h.held_recorded k hk
    held_once := fun k k' hne hk => by
      by_cases heq : k = holder
      · subst heq
        rw [hself] at hk ⊢
        rw [hother k' hne.symm]
        exact ((hv.resolve_left hk).2.2.2 k' hne.symm).symm
      · rw [hother k heq] at hk ⊢
        by_cases heq' : k' = holder
        · subst heq'
          rw [hself]
          obtain hnone | hsome := hv
          · rw [hnone]
            exact hk
          · exact hsome.2.2.2 k heq
        · rw [hother k' heq']
          exact h.held_once k k' hne hk }

def putIndex (holder : Nat) (i : Int) (f : Nat → CReserveKey) : Nat → CReserveKey :=
  update f holder { f holder with nIndex := i }

theorem setReserveKey_assign (holder : Nat) (i : Int) (w : CWallet) :
    setReserveKey holder (fun r => { r with nIndex := i }) w =
      .ok () { w with reserveKeys := putIndex holder i w.reserveKeys } := rfl

theorem putIndex_idle (h : (w.reserveKeys holder).nIndex = -1) :
    putIndex holder (-1) w.reserveKeys = w.reserveKeys := by
  rw [putIndex, ← h]
  exact update_eq_self holder w.reserveKeys

theorem Refilled.not_held (h : Refilled S w w₁) (hi : i ∈ w₁.setKeyPool) (k : Nat) :
    (w₁.reserveKeys k).nIndex ≠ i :=
  fun heq => h.safe.held_free k (heq ▸ hi)

theorem getKeyFromPool_safe (hfresh : Fresh S) (h : Safe S w) (hfree : NoneHeld w (targetSize S 0)) :
    ∃ r w', getKeyFromPool S w = .ok r w' ∧ Safe S w' := by
  obtain ⟨w₁, href, hres⟩ := reserveKeyFromKeyPool_spec hfresh (fun _ => pure ())
    (fun _ f => f) (fun _ _ => rfl) rfl h hfree
  obtain hnone | ⟨i, r, hi, hr, hsome⟩ := hres
  · simp only [getKeyFromPool]
    rw [bind_apply_ok hnone]
    simp only [get_bind_apply]
    cases hlocked : w₁.isLocked with
    | true => exact ⟨none, w₁, rfl, href.safe⟩
    | false =>
      have hgen := generateNewKey_eq hlocked (href.safe.newKey_not_recorded hfresh)
      have hsafe := withNewKey_safe href.safe
      simp only [Bool.false_eq_true, if_false]
      rw [bind_apply_ok hgen]
      exact ⟨some (newKey S w₁), _, rfl, hsafe.record (newKey_generated w₁)
        (href.safe.newKey_not_pooled hfresh) fun hmem =>
          newKey_not_generated hfresh w₁ (href.safe.handed_generated _ hmem)⟩
  · simp only [getKeyFromPool]
    rw [bind_apply_ok hsome]
    exact ⟨some r.vchPubKey, _, rfl, (href.safe.remove i).handOut hr
      (Finset.notMem_erase i _) (href.not_held hi)⟩

theorem getOldestKeyPoolTime_safe (hfresh : Fresh S) (now : Int) (h : Safe S w)
    (hfree : NoneHeld w (targetSize S 0)) :
    ∃ r w', getOldestKeyPoolTime S now w = .ok r w' ∧ Safe S w' := by
  obtain ⟨w₁, href, hres⟩ := reserveKeyFromKeyPool_spec hfresh (fun _ => pure ())
    (fun _ f => f) (fun _ _ => rfl) rfl h hfree
  simp only [getOldestKeyPoolTime]
  obtain hnone | ⟨i, r, hi, hr, hsome⟩ := hres
  · rw [bind_apply_ok hnone]
    exact ⟨now, w₁, rfl, href.safe⟩
  · rw [bind_apply_ok hsome]
    exact ⟨r.nTime, _, rfl, (href.safe.remove i).putBack (href.safe.index_pos i hi) hr
      (href.not_held hi)⟩

theorem getReservedKey_safe (hfresh : Fresh S) (holder : Nat) (h : Safe S w)
    (hfree : (w.reserveKeys holder).nIndex = -1 → NoneHeld w (targetSize S 0)) :
    ∃ r w', getReservedKey S holder w = .ok r w' ∧ Safe S w' := by
  simp only [getReservedKey, get_bind_apply]
  by_cases hidle : (w.reserveKeys holder).nIndex = -1
  · rw [if_pos hidle]
    obtain ⟨w₁, href, hres⟩ := reserveKeyFromKeyPool_spec hfresh _ (putIndex holder)
      (setReserveKey_assign holder) (putIndex_idle hidle) h (hfree hidle)
    obtain hnone | ⟨i, r, hi, hr, hsome⟩ := hres
    · rw [bind_apply_ok hnone]
      exact ⟨none, w₁, rfl, href.safe⟩
    · rw [bind_apply_ok hsome]
      refine ⟨some r.vchPubKey, _, rfl, ?_⟩
      have hmay : MayHold { w₁ with setKeyPool := w₁.setKeyPool.erase i } holder
          ⟨i, some r.vchPubKey⟩ :=
        .inr ⟨href.safe.index_pos i hi, Finset.notMem_erase i _, ⟨r, hr, rfl⟩,
          fun k _ => href.not_held hi k⟩
      simpa only [withHolder, putIndex, update_idem, update_self] using
        (href.safe.remove i).hold hmay
  · rw [if_neg hidle]
    obtain ⟨r, -, hpk⟩ := h.held_recorded holder hidle
    rw [hpk]
    exact ⟨some r.vchPubKey, w, rfl, h⟩

theorem Safe.not_held_after_release (h : Safe S w) (hheld : (w.reserveKeys holder).nIndex ≠ -1)
    (k : Nat) :
    ((withHolder w holder ⟨-1, none⟩).reserveKeys k).nIndex ≠ (w.reserveKeys holder).nIndex := by
  by_cases heq : k = holder
  · subst heq
    rw [withHolder_self]
    exact hheld.symm
  · rw [withHolder_of_ne w _ heq]
    exact (h.held_once holder k (Ne.symm heq) hheld).symm

theorem reserveKeepKey_safe (holder : Nat) (h : Safe S w) :
    ∃ w', reserveKeepKey holder w = .ok () w' ∧ Safe S w' := by
  simp only [reserveKeepKey, get_bind_apply]
  by_cases hheld : (w.reserveKeys holder).nIndex = -1
  · rw [if_neg (not_not.mpr hheld)]
    exact ⟨_, rfl, h.hold (.inl rfl)⟩
  · obtain ⟨r, hr, hpk⟩ := h.held_recorded holder hheld
    rw [if_pos hheld, hpk]
    exact ⟨_, rfl, (h.hold (.inl rfl)).handOut hr (h.held_free holder)
      (h.not_held_after_release hheld)⟩

theorem reserveReturnKey_safe (holder : Nat) (h : Safe S w) :
    ∃ w', reserveReturnKey holder w = .ok () w' ∧ Safe S w' := by
  simp only [reserveReturnKey, get_bind_apply]
  by_cases hheld : (w.reserveKeys holder).nIndex = -1
  · rw [if_neg (not_not.mpr hheld)]
    exact ⟨_, rfl, h.hold (.inl rfl)⟩
  · obtain ⟨r, hr, -⟩ := h.held_recorded holder hheld
    rw [if_pos hheld]
    exact ⟨_, rfl, (h.hold (.inl rfl)).putBack (h.held_pos holder hheld) hr
      (h.not_held_after_release hheld)⟩

theorem lookup_foldl_erase (l : List Int) (pool : AList fun _ : Int => CKeyPool) (i : Int) :
    (l.foldl (fun pool nIndex => pool.erase nIndex) pool).lookup i =
      if i ∈ l then none else pool.lookup i := by
  induction l generalizing pool with
  | nil => rfl
  | cons j l ih =>
    rw [List.foldl_cons, ih]
    by_cases hl : i ∈ l
    · rw [if_pos hl, if_pos (List.mem_cons_of_mem j hl)]
    · by_cases hij : i = j
      · subst hij
        rw [if_neg hl, if_pos List.mem_cons_self, AList.lookup_erase]
      · rw [if_neg hl, if_neg (by simp [hl, hij]), AList.lookup_erase_ne hij]

theorem cleared_safe (h : Safe S w) : Safe S (cleared w) := by
  refine h.restrict (Finset.empty_subset _) (fun i r hr => ?_) fun i hi => ?_
  · rw [lookup_foldl_erase] at hr
    split at hr
    · cases hr
    · exact hr
  · obtain hi | ⟨k, rfl⟩ := hi
    · exact absurd hi (Finset.notMem_empty i)
    · rw [lookup_foldl_erase, if_neg]
      simpa using h.held_free k

theorem addPoolKeys_refilled (hfresh : Fresh S) (l : List Nat) (h : Safe S w)
    (hunlocked : w.isLocked = false)
    (hfree : ∀ i ∈ l, ∀ k, (w.reserveKeys k).nIndex ≠ (i : Int) + 1) :
    ∃ w', (l.forM fun i => addPoolKey S (i + 1)) w = .ok () w' ∧ Refilled S w w' := by
  induction l generalizing w with
  | nil => exact ⟨w, rfl, h, rfl, rfl⟩
  | cons i l ih =>
    have hpos : 0 < (i : Int) + 1 := by omega
    have hsafe := withPoolKey_safe hfresh h hpos (hfree i List.mem_cons_self)
    obtain ⟨w', hrun, hsafe', hres, hlock⟩ := ih hsafe hunlocked
      fun j hj => hfree j (List.mem_cons_of_mem i hj)
    refine ⟨w', ?_, hsafe', hres, hlock⟩
    exact (bind_apply_ok (addPoolKey_eq hfresh h hunlocked _)).trans hrun

theorem newKeyPool_safe (hfresh : Fresh S) (h : Safe S w)
    (hfree : w.isLocked = false → ∀ k, ¬(1 ≤ (w.reserveKeys k).nIndex ∧ (w.reserveKeys k).nIndex ≤ keypoolSize S)) :
    (∃ b w', newKeyPool S w = .ok b w' ∧ Safe S w') ∨
      ∃ w', newKeyPool S w = .error .intOverflow w' := by
  have hstart : newKeyPool S w = (do
      if (← get).isLocked then pure false
      else if keypoolSize S > 2147483647 then throw .intOverflow
      else
        (List.range (keypoolSize S).toNat).forM fun i => addPoolKey S (i + 1)
        pure true : WalletM Bool) (cleared w) := rfl
  rw [hstart, get_bind_apply]
  cases hlocked : w.isLocked with
  | true =>
    have hcleared : (cleared w).isLocked = true := hlocked
    rw [if_pos hcleared]
    exact .inl ⟨false, cleared w, rfl, cleared_safe h⟩
  | false =>
    have hunlocked : (cleared w).isLocked = false := hlocked
    simp only [hunlocked, Bool.false_eq_true, if_false]
    by_cases hbig : keypoolSize S > 2147483647
    · right
      rw [if_pos hbig]
      exact ⟨_, rfl⟩
    · left
      rw [if_neg hbig]
      obtain ⟨w', hrun, href⟩ := addPoolKeys_refilled hfresh (List.range (keypoolSize S).toNat)
        (cleared_safe h) hunlocked fun i hi k heq => hfree hlocked k (by
          have hlt := List.mem_range.mp hi
          change (w.reserveKeys k).nIndex = _ at heq
          omega)
      exact ⟨true, w', by rw [bind_apply_ok hrun]; rfl, href.safe⟩

theorem lock_safe (h : Safe S w) : ∃ b w', lock w = .ok b w' ∧ Safe S w' := by
  simp only [lock, get_bind_apply]
  split
  · exact ⟨false, w, rfl, h⟩
  · exact ⟨true, _, rfl, { h with }⟩

theorem unlock_safe (passphraseOk : Bool) (h : Safe S w) :
    ∃ b w', unlock passphraseOk w = .ok b w' ∧ Safe S w' := by
  simp only [unlock, get_bind_apply]
  split
  · exact ⟨true, _, rfl, { h with }⟩
  · exact ⟨false, w, rfl, h⟩

inductive Call
  | topUpKeyPool (kpSize : UInt32)
  | newKeyPool
  | getKeyFromPool
  | getOldestKeyPoolTime (now : Int)
  | lock
  | unlock (passphraseOk : Bool)
  | getReservedKey (holder : Nat)
  | keepKey (holder : Nat)
  | returnKey (holder : Nat)

def exec (S : Setting) : Call → WalletM Unit
  | .topUpKeyPool kpSize => discard (topUpKeyPool S kpSize)
  | .newKeyPool => discard (newKeyPool S)
  | .getKeyFromPool => discard (getKeyFromPool S)
  | .getOldestKeyPoolTime now => discard (getOldestKeyPoolTime S now)
  | .lock => discard lock
  | .unlock passphraseOk => discard (unlock passphraseOk)
  | .getReservedKey holder => discard (getReservedKey S holder)
  | .keepKey holder => reserveKeepKey holder
  | .returnKey holder => reserveReturnKey holder

/-- The runs of a wallet. An exception leaves the changes made so far, while a failed assertion ends
the process. -/
def poolSystem (S : Setting) : System CWallet Call where
  start := {w | ∃ fUseCrypto locked, w = CWallet.empty fUseCrypto locked}
  next w call w' := exec S call w = .ok () w' ∨
    ∃ e, exec S call w = .error e w' ∧ e ≠ .assertion ∧ e ≠ .intOverflow

/-- Nobody holds one of the indices for which the call would generate new keys. -/
def NoClash (S : Setting) (w : CWallet) : Call → Prop
  | .topUpKeyPool kpSize => NoneHeld w (targetSize S kpSize)
  | .newKeyPool => w.isLocked = false → ∀ k, ¬(1 ≤ (w.reserveKeys k).nIndex ∧
      (w.reserveKeys k).nIndex ≤ keypoolSize S)
  | .getKeyFromPool | .getOldestKeyPoolTime _ => NoneHeld w (targetSize S 0)
  | .getReservedKey holder =>
    (w.reserveKeys holder).nIndex = -1 → NoneHeld w (targetSize S 0)
  | .lock | .unlock _ | .keepKey _ | .returnKey _ => True

theorem discard_safe {m : WalletM α} (h : ∃ a w', m w = .ok a w' ∧ Safe S w') :
    ∃ w', (discard m : WalletM Unit) w = .ok () w' ∧ Safe S w' := by
  obtain ⟨a, w', hrun, hsafe⟩ := h
  exact ⟨w', bind_apply_ok (f := fun _ => pure ()) hrun, hsafe⟩

theorem exec_safe (hfresh : Fresh S) (h : Safe S w) (hfree : NoClash S w call) :
    (∃ w', exec S call w = .ok () w' ∧ Safe S w') ∨ ∃ w', exec S call w = .error .intOverflow w' := by
  cases call with
  | topUpKeyPool kpSize =>
    obtain ⟨b, w', hrun, href⟩ := topUpKeyPool_refilled hfresh kpSize h hfree
    exact .inl (discard_safe ⟨b, w', hrun, href.safe⟩)
  | newKeyPool =>
    refine (newKeyPool_safe hfresh h hfree).imp discard_safe ?_
    rintro ⟨w', hrun⟩
    exact ⟨w', bind_apply_error (f := fun _ => pure ()) hrun⟩
  | getKeyFromPool => exact .inl (discard_safe (getKeyFromPool_safe hfresh h hfree))
  | getOldestKeyPoolTime now =>
    exact .inl (discard_safe (getOldestKeyPoolTime_safe hfresh now h hfree))
  | lock => exact .inl (discard_safe (lock_safe h))
  | unlock passphraseOk => exact .inl (discard_safe (unlock_safe passphraseOk h))
  | getReservedKey holder => exact .inl (discard_safe (getReservedKey_safe hfresh holder h hfree))
  | keepKey holder => exact .inl (reserveKeepKey_safe holder h)
  | returnKey holder => exact .inl (reserveReturnKey_safe holder h)

theorem reach_safe (hfresh : Fresh S) (h : Reach ((poolSystem S).under (NoClash S)) w) :
    Safe S w := by
  refine h.invariant ?_ ?_
  · rintro w ⟨fUseCrypto, locked, rfl⟩
    exact empty_safe S fUseCrypto locked
  · rintro w call w' hsafe ⟨hfree, hnext⟩
    obtain ⟨w₁, hrun, hsafe₁⟩ | ⟨w₁, hrun⟩ := exec_safe hfresh hsafe hfree <;>
      obtain hok | ⟨e, herr, -, hover⟩ := hnext
    · rw [hrun] at hok
      cases hok
      exact hsafe₁
    · rw [hrun] at herr
      cases herr
    · rw [hrun] at hok
      cases hok
    · rw [hrun] at herr
      cases herr
      exact absurd rfl hover

/-- In every run without such clashes the pool is consistent, no index has two holders and no key is
handed out twice. -/
theorem keyPool_safe (hfresh : Fresh S) {w : CWallet}
    (h : Reach ((poolSystem S).under (NoClash S)) w) :
    (∀ i ∈ w.setKeyPool, ∃ r, w.db.pool.lookup i = some r) ∧
    (∀ k k', k ≠ k' → (w.reserveKeys k).nIndex = (w.reserveKeys k').nIndex →
      (w.reserveKeys k).nIndex = -1) ∧
    w.handedOut.Nodup := by
  have hsafe := reach_safe hfresh h
  refine ⟨hsafe.index_recorded, fun k k' hne heq => ?_, hsafe.handed_once⟩
  by_contra hheld
  exact hsafe.held_once k k' hne hheld heq

/-- The first three keys are those of the secrets 1, 2 and 3. The others only have to differ. -/
def poolSetting (keypool : Int) : Setting :=
  sampleSetting (fun n => if n < 3 then sampleKey (n + 1) else ⟨true, List.replicate (100 + n) 0⟩)
    keypool

theorem poolSetting_pubKey (keypool : Int) (n : Nat) :
    (poolSetting keypool).fn.getPubKey ((poolSetting keypool).makeNewKey n) =
      if n < 3 then samplePubKey (n + 1) else List.replicate (100 + n) 0 := by
  change oneKey.fn.getPubKey (if n < 3 then sampleKey (n + 1) else _) = _
  split_ifs with hn
  · interval_cases n <;> decide +kernel
  · have hvalid : ¬((List.replicate (100 + n) (0 : UInt8)).length = 32 ∧
        PrivKey.seckeyVerify (List.replicate (100 + n) 0) = true) := by
      rw [List.length_replicate]
      omega
    change ((onCurve _).bind _).getD _ = _
    rw [onCurve, dif_neg hvalid]
    rfl

theorem poolSetting_fresh (keypool : Int) : Fresh (poolSetting keypool) := by
  intro n m h
  have hlength (k : Nat) : (samplePubKey k).length = 33 := PrivKey.length_compressed _
  have hsize := congrArg List.length h
  simp only [poolSetting_pubKey, apply_ite List.length, hlength, List.length_replicate] at h hsize
  split_ifs at h hsize with hn hm hm
  · revert h
    interval_cases n <;> interval_cases m <;> decide +kernel
  all_goals omega

theorem keyPool_safe_two_holders :
    ∃ w : CWallet, w.handedOut = [samplePubKey 1] ∧ (w.reserveKeys 0).nIndex = -1 ∧
      (w.reserveKeys 1).nIndex = 2 ∧ w.setKeyPool = {3} ∧ w.handedOut.Nodup ∧
      ∀ i ∈ w.setKeyPool, ∃ r, w.db.pool.lookup i = some r := by
  have hfresh := poolSetting_fresh 1
  obtain ⟨w₁, hrun₁, hpool, hset, hrun₁'⟩ := ok_of_run
    (m := exec (poolSetting 1) (.getReservedKey 0)) (w := CWallet.empty false false)
    (p := fun w => w.db.pool.keys = [2, 1] ∧ nEnd w.setKeyPool = 3 ∧
      runsTo (exec (poolSetting 1) (.getReservedKey 1))
        (fun t => decide (runsTo (exec (poolSetting 1) (.keepKey 0))
          (fun t => decide (t.handedOut = [samplePubKey 1] ∧ (t.reserveKeys 0).nIndex = -1 ∧
            (t.reserveKeys 1).nIndex = 2 ∧ t.setKeyPool = {3})) t = true)) w = true) (by decide +kernel)
  obtain ⟨w₂, hrun₂, hrun₂'⟩ := ok_of_run hrun₁'
  obtain ⟨w₃, hrun₃, hfacts⟩ := ok_of_run hrun₂'
  have hreach₁ : Reach ((poolSystem (poolSetting 1)).under (NoClash (poolSetting 1))) w₁ := by
    refine .step (i := .getReservedKey 0) (.start ⟨false, false, rfl⟩) ⟨?_, .inl hrun₁⟩
    intro _ _ k hk
    have hge : (1 : Int) ≤ -1 := hk.1
    omega
  have hclash : NoClash (poolSetting 1) w₁ (.getReservedKey 1) := by
    intro _ _ k hk
    obtain ⟨hge, -⟩ := hk
    rw [hset] at hge
    obtain ⟨r, hr, -⟩ := (reach_safe hfresh hreach₁).held_recorded k (by omega)
    have hmem := AList.mem_keys.mp (AList.lookup_isSome.mp (Option.isSome_of_eq_some hr))
    rw [hpool] at hmem
    simp only [List.mem_cons, List.not_mem_nil, or_false] at hmem
    omega
  have hreach₂ := hreach₁.step (i := .getReservedKey 1) ⟨hclash, .inl hrun₂⟩
  obtain ⟨hrec, -, hnodup⟩ := keyPool_safe hfresh
    (hreach₂.step (i := .keepKey 0) ⟨trivial, .inl hrun₃⟩)
  exact ⟨w₃, hfacts.1, hfacts.2.1, hfacts.2.2.1, hfacts.2.2.2, hnodup, hrec⟩

/-- With `-keypool=0` the pool is empty after a key was reserved. The refill starts at 1 again,
although the first holder still has the index 1. -/
theorem index_held_twice :
    ∃ w, Reach (poolSystem (poolSetting 0)) w ∧
      (w.reserveKeys 0).nIndex = 1 ∧ (w.reserveKeys 1).nIndex = 1 := by
  obtain ⟨w₁, hrun₁, hrun₁'⟩ := ok_of_run
    (m := exec (poolSetting 0) (.getReservedKey 0)) (w := CWallet.empty false false)
    (p := fun w => runsTo (exec (poolSetting 0) (.getReservedKey 1)) (fun t =>
      decide ((t.reserveKeys 0).nIndex = 1 ∧ (t.reserveKeys 1).nIndex = 1)) w = true) (by decide +kernel)
  obtain ⟨w₂, hrun₂, hheld⟩ := ok_of_run hrun₁'
  exact ⟨w₂, .step (.step (.start ⟨false, false, rfl⟩) (.inl hrun₁)) (.inl hrun₂), hheld⟩

end Utsuite.KeyPool
