import Utsuite.CurveKeys
import Utsuite.Transitions

namespace Utsuite.WalletDump

open ByteWords CurveKeys DumpText Hoare Transitions Wallet WalletFile List

variable {S : Setting} {T : TextFunctions S.fn}

variable {timed : Prop} {w : CWallet} {but : CKeyID → Prop}

def HasTime (w : CWallet) (keyid : CKeyID) : Prop :=
  ∃ nTime, nTime ≠ 0 ∧ w.mapKeyMetadata.lookup keyid = some nTime

def KeyedMap (Q : CKey → Prop) (S : Setting) (mapKeys : AList fun _ : CKeyID => CKey) : Prop :=
  ∀ keyid key, mapKeys.lookup keyid = some key → S.fn.getID (S.fn.getPubKey key) = keyid ∧ Q key

/-- The keys are valid and stand where they belong, in memory and in the file, and the records of the
pool are about such keys. Where keys are `timed`, each has a time, apart from those in `but`. -/
structure Stored (S : Setting) (timed : Prop) (but : CKeyID → Prop) (w : CWallet) : Prop where
  plain : w.fUseCrypto = false
  times : timed → ∀ keyid ∈ w.mapKeys, but keyid ∨ HasTime w keyid
  index_recorded : ∀ i ∈ w.setKeyPool, i ∈ w.db.pool
  pool_written : ∀ i r, w.db.pool.lookup i = some r → r.vchPubKey ∈ w.db.key
  keyed : KeyedMap (fun key => S.fn.Valid key ∧ S.fn.getPubKey key ∈ w.db.key) S w.mapKeys
  key_written : ∀ pk v, w.db.key.lookup pk = some v → ∃ key, S.fn.Valid key ∧
    S.fn.getPubKey key = pk ∧ v = (S.fn.getPrivKey key, S.fn.hash (pk ++ S.fn.getPrivKey key))
  key_known : ∀ pk ∈ w.db.key, S.fn.getID pk ∈ w.mapKeys
  keymeta_key : ∀ pk ∈ w.db.keymeta, pk ∈ w.db.key
  named : w.mapAddressBook = w.db.name

def Never : CKeyID → Prop := fun _ => False

theorem empty_stored (S : Setting) (timed : Prop) : Stored S timed Never (CWallet.empty false true) := by
  constructor <;> simp [CWallet.empty, Records.empty, KeyedMap]

def Kept {α : Type} (S : Setting) (timed : Prop) (m : WalletM α) : Prop :=
  Triple (Stored S timed Never) m (fun _ => Stored S timed Never) fun _ => Stored S timed Never

def storedRecords (S : Setting) (db : Records) (key : CKey) (nTime : Int) : Records :=
  let pubkey := S.fn.getPubKey key
  let value := (S.fn.getPrivKey key, S.fn.hash (pubkey ++ S.fn.getPrivKey key))
  if pubkey ∈ db.keymeta then db
  else { db with
    keymeta := db.keymeta.insert pubkey nTime
    key := if pubkey ∈ db.key then db.key else db.key.insert pubkey value }

def storedKey (S : Setting) (w : CWallet) (key : CKey) : CWallet :=
  let keyid := S.fn.getID (S.fn.getPubKey key)
  { w with
    mapKeys := w.mapKeys.insert keyid key
    mapKeyMetadata :=
      if keyid ∈ w.mapKeyMetadata then w.mapKeyMetadata else w.mapKeyMetadata.insert keyid 0
    db := storedRecords S w.db key ((w.mapKeyMetadata.lookup keyid).getD 0) }

theorem isLocked_of_plain (hplain : w.fUseCrypto = false) :
    w.isLocked = false := by
  rw [CWallet.isLocked, hplain, Bool.false_and]

theorem writeKey_eq (key : CKey) (nTime : Int) (w : CWallet) :
    writeKey S (S.fn.getPubKey key) (S.fn.getPrivKey key) nTime w =
      .ok (decide (S.fn.getPubKey key ∉ w.db.keymeta ∧ S.fn.getPubKey key ∉ w.db.key))
        { w with db := storedRecords S w.db key nTime } := by
  by_cases hm : S.fn.getPubKey key ∈ w.db.keymeta <;>
    by_cases hk : S.fn.getPubKey key ∈ w.db.key <;>
    simp [writeKey, storedRecords, hm, hk]

theorem keyMetadata_eq (keyid : CKeyID) (w : CWallet) :
    keyMetadata keyid w = .ok ((w.mapKeyMetadata.lookup keyid).getD 0) { w with
      mapKeyMetadata :=
        if keyid ∈ w.mapKeyMetadata then w.mapKeyMetadata
        else w.mapKeyMetadata.insert keyid 0 } := by
  simp only [keyMetadata, get_bind_apply]
  cases hlook : w.mapKeyMetadata.lookup keyid with
  | none => simp [AList.lookup_eq_none.mp hlook]
  | some nTime =>
    have hmem : keyid ∈ w.mapKeyMetadata := by
      rw [← AList.lookup_isSome, hlook]
      rfl
    simp [hmem]

theorem addKeyPubKey_eq (hplain : w.fUseCrypto = false) (key : CKey) :
    addKeyPubKey S key (S.fn.getPubKey key) w =
      .ok (decide (S.fn.getPubKey key ∉ w.db.keymeta ∧ S.fn.getPubKey key ∉ w.db.key))
        (storedKey S w key) := by
  simp only [addKeyPubKey, get_bind_apply, isLocked_of_plain hplain, Bool.false_eq_true,
    if_false, set_bind_apply]
  rw [bind_apply_ok (keyMetadata_eq _ _), if_neg (by simp [hplain]), writeKey_eq]
  rfl

theorem mem_storedRecords_key :
    pk ∈ (storedRecords S db key nTime).key ↔
      pk ∈ db.key ∨ (pk = S.fn.getPubKey key ∧ S.fn.getPubKey key ∉ db.keymeta) := by
  by_cases hm : S.fn.getPubKey key ∈ db.keymeta <;>
    by_cases hk : S.fn.getPubKey key ∈ db.key <;>
    simp [storedRecords, hm, hk] <;> grind

theorem hasTime_storedKey (key : CKey) (h : HasTime w keyid) :
    HasTime (storedKey S w key) keyid := by
  obtain ⟨nTime, hne, hlook⟩ := h
  refine ⟨nTime, hne, ?_⟩
  by_cases hmem : S.fn.getID (S.fn.getPubKey key) ∈ w.mapKeyMetadata
  · simp only [storedKey, if_pos hmem, hlook]
  · have hother : keyid ≠ S.fn.getID (S.fn.getPubKey key) := by
      rintro rfl
      rw [AList.lookup_eq_none.mpr hmem] at hlook
      cases hlook
    simp only [storedKey, if_neg hmem, AList.lookup_insert_ne hother, hlook]

theorem storedKey_others (w : CWallet) (key : CKey) :
    (storedKey S w key).db.pool = w.db.pool ∧ (storedKey S w key).db.name = w.db.name := by
  by_cases hm : S.fn.getPubKey key ∈ w.db.keymeta <;> simp [storedKey, storedRecords, hm]

theorem lookup_insert_if [DecidableEq α] (m : AList fun _ : α => β) (a : α) (b : β) (i : α) :
    (m.insert a b).lookup i = if i = a then some b else m.lookup i := by
  by_cases h : i = a
  · subst h
    rw [AList.lookup_insert, if_pos rfl]
  · rw [AList.lookup_insert_ne h, if_neg h]

theorem keyed_insert (h : KeyedMap Q S mapKeys) (hkey : Q key) :
    KeyedMap Q S (mapKeys.insert (S.fn.getID (S.fn.getPubKey key)) key) := by
  intro keyid key' hlook
  rw [lookup_insert_if] at hlook
  split_ifs at hlook with hid
  · cases hlook
    exact ⟨hid.symm, hkey⟩
  · exact h keyid key' hlook

theorem mem_storedKey (h : Stored S timed but w) :
    pk ∈ (storedKey S w key).db.key ↔ pk = S.fn.getPubKey key ∨ pk ∈ w.db.key := by
  have hmeta := h.keymeta_key (S.fn.getPubKey key)
  refine mem_storedRecords_key.trans ?_
  grind

theorem storedKey_stored (h : Stored S timed but w) (hkey : S.fn.Valid key)
    (htime : timed →
      but (S.fn.getID (S.fn.getPubKey key)) ∨ HasTime w (S.fn.getID (S.fn.getPubKey key))) :
    Stored S timed but (storedKey S w key) where
  plain := h.plain
  times ht keyid hmem := by
    obtain rfl | hmem := (AList.mem_insert _).mp hmem
    · exact (htime ht).imp id (hasTime_storedKey key)
    · exact (h.times ht keyid hmem).imp id (hasTime_storedKey key)
  index_recorded i hi := (storedKey_others w key).1.symm ▸ h.index_recorded i hi
  pool_written i r hr :=
    (mem_storedKey h).mpr (.inr (h.pool_written i r ((storedKey_others w key).1 ▸ hr)))
  keyed := keyed_insert (fun keyid key' hlook => (h.keyed keyid key' hlook).imp_right
    (And.imp_right fun hmem => (mem_storedKey h).mpr (.inr hmem))) ⟨hkey, (mem_storedKey h).mpr (.inl rfl)⟩
  key_written pk v hv := by
    change (storedRecords S w.db key _).key.lookup pk = some v at hv
    unfold storedRecords at hv
    dsimp only at hv
    split_ifs at hv
    · exact h.key_written pk v hv
    · exact h.key_written pk v hv
    · rw [lookup_insert_if] at hv
      split_ifs at hv with hpk
      · cases hv
        exact ⟨key, hkey, hpk.symm, by rw [hpk]⟩
      · exact h.key_written pk v hv
  key_known pk hpk := (AList.mem_insert _).mpr <| ((mem_storedKey h).mp hpk).imp (congrArg _) (h.key_known pk)
  keymeta_key pk hpk := by
    change pk ∈ (storedRecords S w.db key _).keymeta at hpk
    refine (mem_storedKey h).mpr ?_
    unfold storedRecords at hpk
    dsimp only at hpk
    split_ifs at hpk
    · exact .inr (h.keymeta_key pk hpk)
    all_goals exact ((AList.mem_insert _).mp hpk).imp_right (h.keymeta_key pk)
  named := h.named.trans (storedKey_others w key).2.symm

theorem Stored.setTime (h : Stored S timed but w) (keyid : CKeyID) (hne : timed → nTime ≠ 0) (n : Nat) :
    Stored S timed (fun i => but i ∧ i ≠ keyid) { w with
      mapKeyMetadata := w.mapKeyMetadata.insert keyid nTime
      generated := n } := by
  refine { h with times := fun ht i hi => ?_ }
  by_cases heq : i = keyid
  · subst heq
    exact .inr ⟨nTime, hne ht, AList.lookup_insert _⟩
  · obtain hbut | ⟨t, ht, hlook⟩ := h.times ht i hi
    · exact .inl ⟨hbut, heq⟩
    · exact .inr ⟨t, ht, (AList.lookup_insert_ne heq).trans hlook⟩

theorem Stored.mono (h : Stored S timed but w) (himp : ∀ i, but i → but' i) : Stored S timed but' w :=
  { h with times := fun ht i hi => (h.times ht i hi).imp (himp i) id }

theorem Stored.setName (h : Stored S timed but w) (address : CKeyID) (strName : Bytes) :
    Stored S timed but { w with
      mapAddressBook := w.mapAddressBook.insert address strName
      db := { w.db with name := w.db.name.insert address strName } } :=
  { h with named := congrArg (AList.insert address strName) h.named }

theorem addKeyPubKey_kept (hkey : S.fn.Valid key) :
    Triple (fun w => Stored S timed Never w ∧ (timed → HasTime w (S.fn.getID (S.fn.getPubKey key))))
      (addKeyPubKey S key (S.fn.getPubKey key))
      (fun _ w => Stored S timed Never w ∧ S.fn.getPubKey key ∈ w.db.key)
      (fun _ => Stored S timed Never) := by
  rintro w ⟨h, htime⟩
  rw [addKeyPubKey_eq h.plain]
  exact ⟨storedKey_stored h hkey fun ht => .inr (htime ht), (mem_storedKey h).mpr (.inl rfl)⟩

theorem Stored.eraseIndex (h : Stored S timed but w) (i : Int) :
    Stored S timed but { w with setKeyPool := w.setKeyPool.erase i } :=
  { h with index_recorded := fun j hj => h.index_recorded j (Finset.mem_of_mem_erase hj) }

theorem takeOldest_kept :
    Triple (Stored S timed Never) (takeOldest S fun _ => pure ())
      (fun taken w => Stored S timed Never w ∧ (taken.2.isSome → taken.1 ∉ w.setKeyPool))
      (fun _ => Stored S timed Never) := by
  refine .get_bind fun w h => ?_
  by_cases hne : w.setKeyPool.Nonempty
  · rw [dif_pos hne]
    have herase := h.eraseIndex (w.setKeyPool.min' hne)
    refine .bind (.pure (Q := fun _ t => t = w) fun _ => id) fun _ => ?_
    refine .bind (.modify (Q := fun _ t => t =
      { w with setKeyPool := w.setKeyPool.erase (w.setKeyPool.min' hne) }) ?_) fun _ => ?_
    · rintro _ rfl
      rfl
    · cases w.db.pool.lookup (w.setKeyPool.min' hne) with
      | none => exact .throw fun _ ht => ht ▸ herase
      | some keypool =>
        refine .ite (fun _ => .pure ?_) fun _ => .throw fun _ ht => ht ▸ herase
        rintro _ rfl
        exact ⟨herase, fun _ => Finset.notMem_erase _ _⟩
  · rw [dif_neg hne]
    refine .pure ?_
    rintro _ rfl
    exact ⟨h, fun hsome => by cases hsome⟩

theorem keepKey_kept (nIndex : Int) :
    Triple (fun w => Stored S timed Never w ∧ nIndex ∉ w.setKeyPool) (keepKey nIndex)
      (fun _ => Stored S timed Never) (fun _ => Stored S timed Never) := by
  refine .modify fun w ⟨h, hfree⟩ =>
    { h with index_recorded := fun i hi => ?_, pool_written := fun i r hr => ?_ }
  · exact AList.mem_erase.mpr ⟨fun heq => hfree (heq ▸ hi), h.index_recorded i hi⟩
  · by_cases heq : i = nIndex
    · subst heq
      rw [AList.lookup_erase] at hr
      cases hr
    · exact h.pool_written i r ((AList.lookup_erase_ne heq).symm.trans hr)

theorem handOut_kept (pk : CPubKey) : Kept S timed (handOut pk) :=
  .modify fun _ h => { h with }

theorem setAddressBook_kept (address : CKeyID) (strName : Bytes) :
    Triple (Stored S timed but) (setAddressBook address strName) (fun _ => Stored S timed but)
      (fun _ => Stored S timed Never) :=
  .modify fun _ h => h.setName address strName

section

variable (hgen : ∀ n, (timed → S.creationTime n ≠ 0) ∧ S.fn.Valid (S.makeNewKey n))

include hgen

theorem generateNewKey_kept :
    Triple (Stored S timed Never) (generateNewKey S)
      (fun pk w => Stored S timed Never w ∧ pk ∈ w.db.key) (fun _ => Stored S timed Never) := by
  refine .get_bind fun w h => ?_
  have hset := (h.setTime (S.fn.getID (S.fn.getPubKey (S.makeNewKey w.generated)))
    (hgen w.generated).1 (w.generated + 1)).mono fun i hi => hi.1
  refine .bind (R := fun _ t => Stored S timed Never t ∧
    (timed → HasTime t (S.fn.getID (S.fn.getPubKey (S.makeNewKey w.generated)))))
    (.set fun _ _ => ⟨hset, fun ht => ⟨_, (hgen _).1 ht, AList.lookup_insert _⟩⟩) fun _ => ?_
  refine .bind (addKeyPubKey_kept (hgen w.generated).2) fun added => ?_
  cases added with
  | false => exact .bind (.throw fun _ h => h.1) fun _ => .pure fun _ => id
  | true => exact .pure fun _ => id

theorem addPoolKey_kept (nIndex : Int) :
    Kept S timed (addPoolKey S nIndex) := by
  refine Triple.get_bind_all fun _ => Triple.bind (generateNewKey_kept hgen) fun pk => ?_
  refine Triple.modify fun w ⟨h, hpk⟩ =>
    { h with index_recorded := fun i hi => ?_, pool_written := fun i r hr => ?_ }
  · obtain rfl | hi := Finset.mem_insert.mp hi
    · exact (AList.mem_insert _).mpr (Or.inl rfl)
    · exact (AList.mem_insert _).mpr (Or.inr (h.index_recorded i hi))
  · by_cases heq : i = nIndex
    · subst heq
      obtain rfl := Option.some.inj ((AList.lookup_insert _).symm.trans hr)
      exact hpk
    · exact h.pool_written i r ((AList.lookup_insert_ne heq).symm.trans hr)

theorem topUpLoop_kept (target rounds : Nat) :
    Kept S timed (topUpLoop S target rounds) := by
  induction rounds with
  | zero => exact .pure fun _ => id
  | succ rounds ih =>
    refine .get_bind_all fun w => .ite (fun _ => ?_) fun _ => .pure fun _ => id
    exact .bind (addPoolKey_kept hgen _) fun _ => ih

theorem topUpIfUnlocked_kept :
    Kept S timed (topUpIfUnlocked S) := by
  have hfill : Kept S timed (topUpKeyPool S 0) := by
    refine .get_bind_all fun _ =>
      .ite (fun _ => .pure fun _ => id) fun _ => ?_
    exact .bind (topUpLoop_kept hgen _ _) fun _ => .pure fun _ => id
  exact .get_bind_all fun _ =>
    .ite (fun _ => .pure fun _ => id) fun _ => .map hfill

theorem getKeyFromPool_kept : Kept S timed (getKeyFromPool S) := by
  have hreserve : Triple (Stored S timed Never) (reserveKeyFromKeyPool S fun _ => pure ())
      (fun taken w => Stored S timed Never w ∧ (taken.2.isSome → taken.1 ∉ w.setKeyPool))
      (fun _ => Stored S timed Never) := by
    refine .bind (R := fun _ => Stored S timed Never) (.pure fun _ => id) fun _ => ?_
    exact .bind (topUpIfUnlocked_kept hgen) fun _ => takeOldest_kept
  refine .bind hreserve fun taken => ?_
  rcases taken with ⟨nIndex, _ | keypool⟩
  · refine .get_bind_all fun w =>
      .ite (fun _ => .pure fun _ h => h.1) fun _ => ?_
    refine .bind ((generateNewKey_kept hgen).pre fun _ h => h.1) fun pk => ?_
    exact .bind ((handOut_kept pk).pre fun _ h => h.1) fun _ => .pure fun _ => id
  · refine .bind ((keepKey_kept nIndex).pre fun w h => ⟨h.1, h.2 rfl⟩) fun _ => ?_
    exact .bind (handOut_kept _) fun _ => .pure fun _ => id

theorem getnewaddress_kept (strAccount : Bytes) :
    Kept S timed (getnewaddress S T strAccount) := by
  refine .bind (topUpIfUnlocked_kept hgen) fun _ => ?_
  refine .bind (getKeyFromPool_kept hgen) fun newKey => ?_
  cases newKey with
  | none => exact .throw fun _ => id
  | some newKey => exact .bind (setAddressBook_kept _ _) fun _ => .pure fun _ => id

end

theorem importprivkey_kept (strSecret : Bytes) : Kept S timed (importprivkey S T strSecret) := by
  unfold importprivkey
  rcases hread : T.setString strSecret with _ | _ | key
  · exact .throw fun _ => id
  · exact .throw fun _ => id
  · refine .bind (setAddressBook_kept _ _) fun _ => .get_bind_all fun w =>
      .ite (fun _ => .pure fun _ => id) fun _ => ?_
    refine .bind (R := fun _ t => Stored S timed Never t ∧
      (timed → HasTime t (S.fn.getID (S.fn.getPubKey key)))) (.modify fun w h => ?_) fun _ => ?_
    · exact ⟨(h.setTime _ (fun _ => one_ne_zero) w.generated).mono fun i hi => hi.1,
        fun _ => ⟨1, one_ne_zero, AList.lookup_insert _⟩⟩
    refine .bind (addKeyPubKey_kept (T.setString_valid strSecret key hread)) fun added => ?_
    exact .ite (fun _ => .pure fun _ h => h.1) fun _ => .throw fun _ h => h.1

theorem valid_of_readSecret
    (hfound : ∀ read, found read = .key key nTime fLabel strLabel → read = key)
    (h : readSecret T field found = .key key nTime fLabel strLabel) : S.fn.Valid key := by
  rw [readSecret] at h
  split at h
  case h_1 => cases h
  case h_2 => cases h
  case h_3 read hread =>
    rw [← hfound read h]
    exact T.setString_valid field read hread

theorem valid_of_electrumLine (h : electrumLine T line = .key key nTime fLabel strLabel) :
    S.fn.Valid key := by
  rw [electrumLine] at h
  split_ifs at h
  split at h
  case h_1 =>
    refine valid_of_readSecret (fun read hread => ?_) h
    cases hread
    rfl
  case h_2 => cases h

theorem valid_of_dumpLine (h : dumpLine T line = .key key nTime fLabel strLabel) :
    S.fn.Valid key := by
  rw [dumpLine] at h
  split_ifs at h
  split at h
  case h_1 =>
    refine valid_of_readSecret (fun read hread => ?_) h
    cases hread
    rfl
  case h_2 => cases h

def AddsNothing (S : Setting) (T : TextFunctions S.fn) (w : CWallet) (lines : List Bytes) : Prop :=
  ∀ line ∈ lines, ∀ key nTime fLabel strLabel,
    electrumLine T line = .key key nTime fLabel strLabel →
      S.fn.getID (S.fn.getPubKey key) ∈ w.mapKeys

theorem importElectrumLine_kept (h : timed → AddsNothing S T w lines) (hline : line ∈ lines) :
    Triple (fun t => Stored S timed Never t ∧ (timed → t = w)) (importElectrumLine S T line)
      (fun _ t => Stored S timed Never t ∧ (timed → t = w)) (fun _ => Stored S timed Never) := by
  unfold importElectrumLine
  cases heq : electrumLine T line with
  | skip => exact .pure fun _ => id
  | invalid => exact .throw fun _ ht => ht.1
  | key key nTime fLabel strLabel =>
    refine .get_bind fun t ht => .ite (fun _ => .pure fun _ hs => hs ▸ ht) fun hnew => ?_
    have huntimed : ¬timed := fun htimed =>
      hnew (decide_eq_true (ht.2 htimed ▸ h htimed line hline key nTime fLabel strLabel heq))
    exact .map (((addKeyPubKey_kept (valid_of_electrumLine heq)).pre
      fun _ hs => ⟨hs ▸ ht.1, fun htimed => absurd htimed huntimed⟩).post
      fun _ _ hs => ⟨hs.1, fun htimed => absurd htimed huntimed⟩)

theorem importelectrumwallet_kept (hw : Stored S timed Never w) (h : timed → ∀ lines ∈ file,
      fileExt strFileName = some (ascii ['c', 's', 'v']) → AddsNothing S T w lines) :
    Triple (fun t => t = w) (importelectrumwallet S T strFileName file)
      (fun _ => Stored S timed Never) (fun _ => Stored S timed Never) := by
  have hsame : ∀ t, t = w → Stored S timed Never t := by
    rintro _ rfl
    exact hw
  unfold importelectrumwallet
  cases hext : fileExt strFileName with
  | none => exact .throw hsame
  | some strFileExt =>
    refine .ite (fun _ => .throw hsame) fun _ => ?_
    cases file with
    | none => exact .throw hsame
    | some lines =>
      refine .ite (fun hcsv => ?_) fun _ => .pure hsame
      have hlines := Triple.forM lines fun line hline =>
        importElectrumLine_kept (fun ht => h ht lines rfl (hcsv ▸ hext)) hline
      exact .bind (hlines.pre fun t ht => ⟨hsame t ht, fun _ => ht⟩) fun _ => .pure fun _ ht => ht.1

def NewKeysTimed (S : Setting) (T : TextFunctions S.fn) : (CKeyID → Prop) → List Bytes → Prop
  | _, [] => True
  | known, line :: lines =>
    match dumpLine T line with
    | .key key nTime _ _ =>
      (¬known (S.fn.getID (S.fn.getPubKey key)) → nTime ≠ 0) ∧
        NewKeysTimed S T (fun i => known i ∨ i = S.fn.getID (S.fn.getPubKey key)) lines
    | _ => NewKeysTimed S T known lines

def Knows (S : Setting) (timed : Prop) (but known : CKeyID → Prop) (w : CWallet) : Prop :=
  Stored S timed but w ∧ ∀ i, known i → i ∈ w.mapKeys

theorem not_recorded_of_new (h : Stored S timed but w) (hnew : S.fn.getID pk ∉ w.mapKeys) :
    pk ∉ w.db.keymeta ∧ pk ∉ w.db.key := by
  have hkey : pk ∉ w.db.key := fun hpk => hnew (h.key_known pk hpk)
  exact ⟨fun hpk => hkey (h.keymeta_key pk hpk), hkey⟩

theorem importWalletLine_kept (hline : dumpLine T line = .key key nTime fLabel strLabel)
    (htime : timed → ¬known (S.fn.getID (S.fn.getPubKey key)) → nTime ≠ 0) :
    Triple (Knows S timed Never known) (importWalletLine S T line)
      (fun _ => Knows S timed Never fun i => known i ∨ i = S.fn.getID (S.fn.getPubKey key))
      (fun _ => Stored S timed Never) := by
  unfold importWalletLine
  rw [hline]
  refine .get_bind fun w ⟨h, hknown⟩ => .ite (fun hhave => .pure ?_) fun hnew => ?_
  · rintro _ rfl
    refine ⟨h, ?_⟩
    rintro i (hi | rfl)
    · exact hknown i hi
    · exact of_decide_eq_true hhave
  · have hnot : S.fn.getID (S.fn.getPubKey key) ∉ w.mapKeys := fun hmem =>
      hnew (decide_eq_true hmem)
    have hstored : Knows S timed (fun i => i = S.fn.getID (S.fn.getPubKey key))
        (fun i => known i ∨ i = S.fn.getID (S.fn.getPubKey key)) (storedKey S w key) := by
      refine ⟨storedKey_stored (h.mono fun _ => False.elim) (valid_of_dumpLine hline)
        fun _ => .inl rfl, fun i hi => ?_⟩
      exact (AList.mem_insert _).mpr (hi.symm.imp id (hknown i))
    refine .bind (R := fun added t => added = true ∧ t = storedKey S w key) ?_ fun added => ?_
    · rintro _ rfl
      rw [addKeyPubKey_eq h.plain]
      exact ⟨decide_eq_true (not_recorded_of_new h hnot), rfl⟩
    · refine .ite (fun _ => ?_) fun hadded => fun _ ht => absurd ht.1 hadded
      refine .bind (R := fun _ => Knows S timed Never
        fun i => known i ∨ i = S.fn.getID (S.fn.getPubKey key)) (.modify ?_) fun _ => ?_
      · rintro _ ⟨-, rfl⟩
        refine ⟨(hstored.1.setTime _ (htime · fun hk => hnot (hknown _ hk)) _).mono ?_, hstored.2⟩
        exact fun i hi => hi.2 hi.1
      · refine .ite (fun _ => ?_) fun _ => .pure fun _ => id
        exact .bind (.modify fun _ ht => ⟨ht.1.setName _ strLabel, ht.2⟩) fun _ => .pure fun _ => id

theorem importLines_kept (lines : List Bytes) (htimed : timed → NewKeysTimed S T known lines)
    (fGood : Bool) :
    Triple (Knows S timed Never known) (importLines S T lines fGood) (fun _ => Stored S timed Never)
      (fun _ => Stored S timed Never) := by
  induction lines generalizing known fGood with
  | nil => exact .pure fun _ ht => ht.1
  | cons line lines ih =>
    cases hline : dumpLine T line with
    | skip =>
      have hrest : timed → NewKeysTimed S T known lines := by simpa [NewKeysTimed, hline] using htimed
      have hskip : importWalletLine S T line = pure true := by
        rw [importWalletLine, hline]
      rw [importLines, hskip]
      exact .bind (.pure (Q := fun _ => Knows S timed Never known) fun _ => id)
        fun _ => ih hrest _
    | invalid =>
      have hthrow : importWalletLine S T line = throw .assertion := by
        rw [importWalletLine, hline]
      rw [importLines, hthrow]
      exact .bind (R := fun _ _ => False) (.throw fun _ ht => ht.1)
        fun _ _ ht => ht.elim
    | key key nTime fLabel strLabel =>
      have hkey : timed → (¬known (S.fn.getID (S.fn.getPubKey key)) → nTime ≠ 0) ∧
          NewKeysTimed S T (fun i => known i ∨ i = S.fn.getID (S.fn.getPubKey key)) lines := by
        simpa [NewKeysTimed, hline] using htimed
      exact .bind (importWalletLine_kept hline fun ht => (hkey ht).1) fun _ => ih (fun ht => (hkey ht).2) _

theorem loadKey_of_written (hkey : S.fn.Valid key) :
    loadKey S mapKeys (S.fn.getPubKey key)
      (S.fn.getPrivKey key, S.fn.hash (S.fn.getPubKey key ++ S.fn.getPrivKey key)) =
      mapKeys.insert (S.fn.getID (S.fn.getPubKey key)) key := by
  simp [loadKey, S.fn.load_getPrivKey key hkey.1 hkey.2]

theorem mem_loadKeys (es : List (Σ _ : CPubKey, CPrivKey × Bytes))
    (mapKeys : AList fun _ : CKeyID => CKey)
    (hes : ∀ e ∈ es, ∃ key, S.fn.Valid key ∧ S.fn.getPubKey key = e.1 ∧
      e.2 = (S.fn.getPrivKey key, S.fn.hash (e.1 ++ S.fn.getPrivKey key))) (keyid : CKeyID) :
    keyid ∈ es.foldl (fun m e => loadKey S m e.1 e.2) mapKeys ↔
      keyid ∈ mapKeys ∨ ∃ e ∈ es, S.fn.getID e.1 = keyid := by
  induction es generalizing mapKeys with
  | nil => simp
  | cons e es ih =>
    obtain ⟨key, hkey, hpk, hv⟩ := hes e mem_cons_self
    rw [foldl_cons, ih _ fun e he => hes e (mem_cons_of_mem _ he), hv, ← hpk,
      loadKey_of_written hkey, AList.mem_insert, hpk]
    simp only [mem_cons, exists_eq_or_imp]
    grind

def RecordsTimed (w : CWallet) : Prop :=
  ∀ pk ∈ w.db.key, ∃ nTime, nTime ≠ 0 ∧ w.db.keymeta.lookup pk = some nTime

theorem mem_iff_entry {α : Type} [DecidableEq α] {β : α → Type} (m : AList β) (a : α) :
    a ∈ m ↔ ∃ e ∈ m.entries, e.1 = a := by
  rw [AList.mem_keys, AList.keys]
  simp [keys]

theorem hasTime_reload (h : Stored S timed Never w) (htimed : RecordsTimed w) (hpk : pk ∈ w.db.key) :
    ∃ nTime, nTime ≠ 0 ∧ (loadMetadata S w.db).lookup (S.fn.getID pk) = some nTime := by
  have hentry : ∃ e ∈ w.db.keymeta.entries, S.fn.getID e.1 = S.fn.getID pk := by
    obtain ⟨nTime, -, hlook⟩ := htimed pk hpk
    exact ⟨⟨pk, nTime⟩, AList.mem_lookup_iff.mp hlook, rfl⟩
  obtain ⟨⟨pk', nTime⟩, he, -, hlook⟩ := lookup_inserts (g := fun e => e.2) w.db.keymeta.entries hentry
    (w.db.pool.entries.foldl (fun m e => loadPoolTime S m e.2) ∅)
  refine ⟨nTime, ?_, hlook⟩
  have hkey := h.keymeta_key pk' ((mem_iff_entry _ _).mpr ⟨_, he, rfl⟩)
  obtain ⟨nTime', hne, hlook'⟩ := htimed pk' hkey
  have heq : nTime' = nTime :=
    Option.some.inj (hlook'.symm.trans (AList.mem_lookup_iff.mpr he))
  exact heq ▸ hne

theorem keyed_loadKeys (es : List (Σ _ : CPubKey, CPrivKey × Bytes))
    (hes : ∀ e ∈ es, ∃ key, S.fn.Valid key ∧ Q key ∧ S.fn.getPubKey key = e.1 ∧
      e.2 = (S.fn.getPrivKey key, S.fn.hash (e.1 ++ S.fn.getPrivKey key)))
    (h : KeyedMap Q S mapKeys) :
    KeyedMap Q S (es.foldl (fun m e => loadKey S m e.1 e.2) mapKeys) := by
  induction es generalizing mapKeys with
  | nil => exact h
  | cons e es ih =>
    obtain ⟨written, hvalid, hQ, hpk, hv⟩ := hes e mem_cons_self
    rw [foldl_cons, hv, ← hpk, loadKey_of_written hvalid]
    exact ih (fun e he => hes e (mem_cons_of_mem _ he)) (keyed_insert h hQ)

theorem reload_kept :
    Triple (fun w => Stored S timed Never w ∧ (timed → RecordsTimed w)) (reload S)
      (fun _ => Stored S timed Never) (fun _ => Stored S timed Never) := by
  refine .modify fun w ⟨h, htimed⟩ => ?_
  have hwritten (e) (he : e ∈ w.db.key.entries) := h.key_written e.1 e.2 (AList.mem_lookup_iff.mpr he)
  have hmem := mem_loadKeys (S := S) w.db.key.entries ∅ hwritten
  refine ⟨h.plain, fun ht keyid hkeyid => .inr ?_, fun i hi => ?_, h.pool_written, ?_, h.key_written,
    fun pk hpk => ?_, h.keymeta_key, rfl⟩
  · obtain hempty | ⟨e, he, rfl⟩ := (hmem keyid).mp hkeyid
    · exact absurd hempty (AList.notMem_empty _)
    · exact hasTime_reload h (htimed ht) ((mem_iff_entry _ _).mpr ⟨e, he, rfl⟩)
  · exact AList.mem_keys.mpr (mem_toFinset.mp hi)
  · refine keyed_loadKeys w.db.key.entries (fun e he => ?_) ?_
    · obtain ⟨key, hvalid, hpk, hv⟩ := hwritten e he
      exact ⟨key, hvalid, ⟨hvalid, (mem_iff_entry _ _).mpr ⟨e, he, hpk.symm⟩⟩, hpk, hv⟩
    · rintro _ _ ⟨⟩
  · obtain ⟨e, he, rfl⟩ := (mem_iff_entry _ _).mp hpk
    exact (hmem _).mpr (.inr ⟨e, he, rfl⟩)

inductive Action
  | generateNewKey
  | getnewaddress (strAccount : Bytes)
  | importprivkey (strSecret : Bytes)
  | importelectrumwallet (strFileName : Bytes) (file : Option (List Bytes))
  | importwallet (file : Option (List Bytes))
  | reload

def exec (S : Setting) (T : TextFunctions S.fn) : Action → WalletM Unit
  | .generateNewKey => discard (generateNewKey S)
  | .getnewaddress strAccount => discard (getnewaddress S T strAccount)
  | .importprivkey strSecret => discard (importprivkey S T strSecret)
  | .importelectrumwallet strFileName file =>
    discard (importelectrumwallet S T strFileName file)
  | .importwallet file => discard (importwallet S T file)
  | .reload => reload S

def walletSystem (S : Setting) (T : TextFunctions S.fn) : System CWallet Action where
  start := {CWallet.empty false true}
  next w action w' := exec S T action w = .ok () w' ∨ ∃ e, exec S T action w = .error e w'

/-- Keys that would come without a time are not new, and are not loaded either. -/
def KeysTimed (S : Setting) (T : TextFunctions S.fn) (w : CWallet) : Action → Prop
  | .generateNewKey | .getnewaddress _ | .importprivkey _ => True
  | .importelectrumwallet strFileName file => ∀ lines ∈ file,
      fileExt strFileName = some (ascii ['c', 's', 'v']) → AddsNothing S T w lines
  | .importwallet file => ∀ lines ∈ file, NewKeysTimed S T (fun i => i ∈ w.mapKeys) lines
  | .reload => RecordsTimed w

section

variable (hgen : ∀ n, (timed → S.creationTime n ≠ 0) ∧ S.fn.Valid (S.makeNewKey n))

include hgen

theorem exec_kept (h : Stored S timed Never w) (htimed : timed → KeysTimed S T w action) :
    Triple (fun t => t = w) (exec S T action) (fun _ => Stored S timed Never)
      (fun _ => Stored S timed Never) := by
  have hsame : ∀ t, t = w → Stored S timed Never t := by
    rintro _ rfl
    exact h
  cases action with
  | generateNewKey =>
    exact .map (((generateNewKey_kept hgen).pre hsame).post fun _ _ ht => ht.1)
  | getnewaddress strAccount => exact .map ((getnewaddress_kept hgen strAccount).pre hsame)
  | importprivkey strSecret => exact .map ((importprivkey_kept strSecret).pre hsame)
  | importelectrumwallet strFileName file =>
    exact .map (importelectrumwallet_kept h htimed)
  | importwallet file =>
    cases file with
    | none => exact .map (.pure hsame)
    | some lines =>
      refine .map ((importLines_kept lines (htimed · lines rfl) true).pre ?_)
      rintro _ rfl
      exact ⟨h, fun _ => id⟩
  | reload =>
    refine reload_kept.pre ?_
    rintro _ rfl
    exact ⟨h, htimed⟩

theorem next_stored (h : Stored S timed Never w) (htimed : timed → KeysTimed S T w action)
    (hnext : (walletSystem S T).next w action w') : Stored S timed Never w' := by
  have hrun := (exec_kept hgen h htimed).run
  obtain hok | ⟨e, herr⟩ := hnext
  · rw [hok] at hrun
    exact hrun
  · rw [herr] at hrun
    exact hrun

end

theorem getAllReserveKeys_ok (h : Stored S timed but w) :
    ∃ ids, getAllReserveKeys S w = .ok ids w := by
  have hround : ∀ i ∈ w.setKeyPool, ∃ keyid, reserveKeyID S i w = .ok keyid w := by
    intro i hi
    obtain ⟨r, hr⟩ := Option.isSome_iff_exists.mp (AList.lookup_isSome.mpr (h.index_recorded i hi))
    have hknown := h.key_known _ (h.pool_written i r hr)
    exact ⟨S.fn.getID r.vchPubKey, by simp [reserveKeyID, hr, CWallet.haveKey, hknown]⟩
  have hloop : ∀ l : List Int, (∀ i ∈ l, i ∈ w.setKeyPool) →
      ∃ ids, l.mapM (reserveKeyID S) w = .ok ids w := by
    intro l hl
    induction l with
    | nil => exact ⟨[], by rw [mapM_nil, pure_apply]⟩
    | cons i l ih =>
      obtain ⟨keyid, hi⟩ := hround i (hl i mem_cons_self)
      obtain ⟨ids, hids⟩ := ih fun j hj => hl j (mem_cons_of_mem _ hj)
      refine ⟨keyid :: ids, ?_⟩
      rw [mapM_cons, bind_apply_ok hi, bind_apply_ok hids, pure_apply]
  exact hloop _ fun i hi => (Finset.mem_sort _).mp hi

theorem mem_getKeyBirthTimes :
    (nTime, keyid) ∈ getKeyBirthTimes w ↔
      nTime ≠ 0 ∧ w.mapKeyMetadata.lookup keyid = some nTime := by
  simp only [getKeyBirthTimes, mem_map, mem_filter, decide_eq_true_eq, Prod.mk.injEq]
  constructor
  · rintro ⟨⟨i, t⟩, ⟨he, hne⟩, rfl, rfl⟩
    exact ⟨hne, AList.mem_lookup_iff.mpr he⟩
  · rintro ⟨hne, hlook⟩
    exact ⟨⟨keyid, nTime⟩, ⟨AList.mem_lookup_iff.mp hlook, hne⟩, rfl, rfl⟩

theorem dumpKey_of_lookup (hkey : w.mapKeys.lookup keyid = some key) (ids : List CKeyID)
    (nTime : Int) :
    ∃ rest, dumpKey T w ids (nTime, keyid) = some (T.secretToString key ++ 0x20 :: rest) :=
  ⟨_, by rw [dumpKey, hkey]; rfl⟩

/-- Along runs in which every key gets a time, a dump has a line with the private key for each key
of the wallet. -/
theorem dumpwallet_complete (hclock : ∀ n, S.creationTime n ≠ 0)
    (hnew : ∀ n, S.fn.Valid (S.makeNewKey n)) {w : CWallet}
    (h : Reach ((walletSystem S T).under (KeysTimed S T)) w) :
    ∃ file, dumpwallet S T true w = .ok file w ∧
      ∀ keyid key, w.mapKeys.lookup keyid = some key →
        ∃ rest, T.secretToString key ++ 0x20 :: rest ∈ file := by
  have hw : Stored S True Never w := by
    refine h.invariant (fun _ hs => hs ▸ empty_stored S True) fun w action w' hw hnext => ?_
    exact next_stored (fun n => ⟨fun _ => hclock n, hnew n⟩) hw (fun _ => hnext.1) hnext.2
  obtain ⟨ids, hids⟩ := getAllReserveKeys_ok hw
  refine ⟨_, bind_apply_ok hids, fun keyid key hkey => ?_⟩
  have hmem : keyid ∈ w.mapKeys := by
    rw [← AList.lookup_isSome, hkey]
    rfl
  obtain ⟨nTime, htime⟩ := (hw.times trivial keyid hmem).resolve_left id
  obtain ⟨rest, hline⟩ := dumpKey_of_lookup (T := T) hkey ids nTime
  refine ⟨rest, mem_cons_of_mem _ (mem_cons_of_mem _ (mem_append_left _
    (mem_filterMap.mpr ⟨(nTime, keyid), ?_, hline⟩)))⟩
  exact mem_mergeSort.mpr (mem_getKeyBirthTimes.mpr htime)

def dumpTexts : TextFunctions oneKey.fn := textFunctions oneKey.fn sampleProgram

theorem dumpwallet_complete_imported :
    ∃ w file, w.mapKeys.lookup (sampleID 1) = some (sampleKey 1) ∧
      dumpwallet oneKey dumpTexts true w = .ok file w ∧
      ∃ rest, sampleSecret ++ 0x20 :: rest ∈ file := by
  obtain ⟨w, hrun, hkey⟩ := ok_of_run (m := exec oneKey dumpTexts (.importprivkey sampleSecret))
    (w := CWallet.empty false true)
    (p := fun w => w.mapKeys.lookup (sampleID 1) = some (sampleKey 1)) (by decide +kernel)
  have hnext : (walletSystem oneKey dumpTexts).next _ (.importprivkey sampleSecret) w := .inl hrun
  obtain ⟨file, hfile, hall⟩ := dumpwallet_complete (S := oneKey) (T := dumpTexts)
    (fun _ => oneKey_clock) (fun _ => sampleKey_valid)
    (.step (i := .importprivkey sampleSecret) (.start rfl) ⟨trivial, hnext⟩)
  have htext : dumpTexts.secretToString (sampleKey 1) = sampleSecret := by decide +kernel
  exact ⟨w, file, hkey, hfile, htext ▸ hall _ _ hkey⟩

theorem dumpwallet_of_untimed (hset : w.setKeyPool = ∅) (hbirth : getKeyBirthTimes w = []) :
    dumpwallet S T true w = .ok [T.dumpHeader, [], [],
      ascii ['#', ' ', 'E', 'n', 'd', ' ', 'o', 'f', ' ', 'd', 'u', 'm', 'p']] w := by
  have hids : getAllReserveKeys S w = .ok [] w := by
    simp [getAllReserveKeys, get_bind_apply, CWallet.poolOrder, hset, pure_apply]
  simp only [dumpwallet, Bool.not_true, Bool.false_eq_true, if_false, get_bind_apply]
  rw [bind_apply_ok hids, hbirth, pure_apply, mergeSort_nil]
  rfl

/-- A key of an Electrum file has the time 0 and is missing from the dump. -/
theorem electrum_key_not_dumped :
    ∃ w file key, Reach (walletSystem oneKey dumpTexts) w ∧
      w.mapKeys.lookup (sampleID 1) = some key ∧
      dumpwallet oneKey dumpTexts true w = .ok file w ∧
      ∀ rest, dumpTexts.secretToString key ++ 0x20 :: rest ∉ file := by
  let action := Action.importelectrumwallet (ascii ['.', 'c', 's', 'v'])
    (some [0x2c :: sampleSecret])
  obtain ⟨w, hrun, hkey, hset, hbirth⟩ := ok_of_run (m := exec oneKey dumpTexts action)
    (w := CWallet.empty false true)
    (p := fun w => w.mapKeys.lookup (sampleID 1) = some (sampleKey 1) ∧ w.setKeyPool = ∅ ∧
      getKeyBirthTimes w = []) (by decide +kernel)
  have hnext : (walletSystem oneKey dumpTexts).next (CWallet.empty false true) action w := .inl hrun
  refine ⟨w, _, _, (Reach.start rfl).step hnext, hkey, dumpwallet_of_untimed hset hbirth,
    fun rest hmem => ?_⟩
  have htext : dumpTexts.secretToString (sampleKey 1) = sampleSecret := by decide +kernel
  have hfirst : sampleSecret.head? = some 0x4b := by decide +kernel
  have hhead := mem_map_of_mem (f := fun line => line.head?) hmem
  rw [htext, head?_append, hfirst] at hhead
  revert hhead
  exact (by decide +kernel : some 0x4b ∉ [dumpTexts.dumpHeader, [], [],
    ascii ['#', ' ', 'E', 'n', 'd', ' ', 'o', 'f', ' ', 'd', 'u', 'm', 'p']].map fun line => line.head?)

end Utsuite.WalletDump
