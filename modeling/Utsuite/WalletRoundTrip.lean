import Utsuite.WalletDump

namespace Utsuite.WalletRoundTrip

open ByteWords Base58 CurveKeys DumpText Hoare Wallet WalletDump WalletFile List

def Keyed (S : Setting) (w : CWallet) : Prop :=
  ∀ keyid key, w.mapKeys.lookup keyid = some key →
    S.fn.getID (S.fn.getPubKey key) = keyid ∧ S.fn.Valid key

/-- The texts of times have no blanks in them, and those of the build have no line ends. -/
structure Readable (P : Program) : Prop where
  time_graphic : ∀ nTime, ∀ c ∈ P.encodeDumpTime nTime, 32 < c
  build_line : 0x0a ∉ P.clientBuild
  date_line : 0x0a ∉ P.clientDate

def TimesRead (P : Program) (w : CWallet) : Prop :=
  ∀ keyid nTime, w.mapKeyMetadata.lookup keyid = some nTime →
    P.decodeDumpTime (P.encodeDumpTime nTime) = nTime

def Wrote (T : TextFunctions fn) (w : CWallet) (lines : List Bytes) (keyid : CKeyID) : Prop :=
  ∃ key rest, w.mapKeys.lookup keyid = some key ∧ T.secretToString key ++ 0x20 :: rest ∈ lines

variable {P : Program} {S : Setting} {w : CWallet}

theorem dumpTag_graphic (ids : List CKeyID) (keyid : CKeyID) :
    ∀ c ∈ dumpTag (textFunctions S.fn P) w ids keyid, 32 < c := by
  unfold dumpTag
  cases w.mapAddressBook.lookup keyid with
  | some name =>
    intro c hc
    have hlabel : ((ascii ['l', 'a', 'b', 'e', 'l', '=']).all fun c => 32 < c) = true := by decide +kernel
    obtain hc | hc := mem_append.mp hc
    · exact of_decide_eq_true (all_eq_true.mp hlabel c hc)
    · exact encodeDumpString_graphic name c hc
  | none =>
    dsimp only
    by_cases hmem : keyid ∈ ids
    · rw [if_pos hmem]
      decide +kernel
    · rw [if_neg hmem]
      decide +kernel

theorem parseLabel_hash (T : TextFunctions fn) (fields : List Bytes) (label : Bool × Bytes) :
    parseLabel T (ascii ['#'] :: fields) label = label := by
  have hhead : (ascii ['#']).head? = some 0x23 := by decide
  rcases label with ⟨fLabel, strLabel⟩
  rw [parseLabel, if_pos hhead]

theorem parseLabel_label (T : TextFunctions fn) (text : Bytes) (fields : List Bytes)
    (label : Bool × Bytes) :
    parseLabel T ((ascii ['l', 'a', 'b', 'e', 'l', '='] ++ text) :: fields) label =
      parseLabel T fields (true, T.decodeDumpString text) := by
  have hhead : ¬(ascii ['l', 'a', 'b', 'e', 'l', '='] ++ text).head? = some 0x23 := by
    change ¬some (Char.toUInt8 'l') = some 0x23
    decide
  have hprefix := isPrefixOf_iff_prefix.mpr
    (prefix_append (ascii ['l', 'a', 'b', 'e', 'l', '=']) text)
  rcases label with ⟨fLabel, strLabel⟩
  rw [parseLabel, if_neg hhead, if_pos hprefix]
  rfl

theorem parseLabel_unlabelled (T : TextFunctions fn) (fields : List Bytes)
    (h : field = ascii ['c', 'h', 'a', 'n', 'g', 'e', '=', '1'] ∨
      field = ascii ['r', 'e', 's', 'e', 'r', 'v', 'e', '=', '1']) (label : Bool × Bytes) :
    parseLabel T (field :: fields) label = parseLabel T fields (false, label.2) := by
  have hhead : ¬field.head? = some 0x23 := by
    obtain rfl | rfl := h <;> decide
  have hprefix : ¬(ascii ['l', 'a', 'b', 'e', 'l', '=']).isPrefixOf field = true := by
    obtain rfl | rfl := h <;> decide
  rcases label with ⟨fLabel, strLabel⟩
  rw [parseLabel, if_neg hhead, if_neg hprefix, if_pos h]

theorem parseLabel_dumpTag (ids : List CKeyID) (keyid : CKeyID) (fields : List Bytes) :
    parseLabel (textFunctions S.fn P) (dumpTag (textFunctions S.fn P) w ids keyid :: ascii ['#'] :: fields)
      (true, []) =
      ((w.mapAddressBook.lookup keyid).isSome, (w.mapAddressBook.lookup keyid).getD []) := by
  unfold dumpTag
  cases w.mapAddressBook.lookup keyid with
  | some name =>
    rw [parseLabel_label, parseLabel_hash]
    exact congrArg (Prod.mk true) (decodeDumpString_encodeDumpString name)
  | none =>
    rw [parseLabel_unlabelled, parseLabel_hash]
    · rfl
    · by_cases hmem : keyid ∈ ids
      · exact .inr (if_pos hmem)
      · exact .inl (if_neg hmem)

theorem head_ne_hash (h : 0x23 ∉ secret) (rest : Bytes) :
    (secret ++ 0x20 :: rest).head? ≠ some 0x23 := by
  intro hhead
  cases secret with
  | nil => exact absurd (Option.some.inj hhead) (by decide)
  | cons c secret =>
    obtain rfl := Option.some.inj hhead
    exact h mem_cons_self

theorem dumpLine_fields (hsecret : 0x20 ∉ secret) (hhash : 0x23 ∉ secret) (htime : 0x20 ∉ time)
    (htag : 0x20 ∉ tag) :
    dumpLine (textFunctions S.fn P) (secret ++ 0x20 :: (time ++ 0x20 :: (tag ++
      ascii [' ', '#', ' '] ++ rest))) =
      readSecret (textFunctions S.fn P) secret fun key =>
        let label := parseLabel (textFunctions S.fn P) (tag :: ascii ['#'] :: rest.splitOn 0x20) (true, [])
        .key key (P.decodeDumpTime time) label.1 label.2 := by
  have hnot : ¬((secret ++ 0x20 :: (time ++ 0x20 :: (tag ++ ascii [' ', '#', ' '] ++ rest))) = [] ∨
      (secret ++ 0x20 :: (time ++ 0x20 :: (tag ++ ascii [' ', '#', ' '] ++ rest))).head? =
        some 0x23) := by
    rintro (hnil | hhead)
    · simp at hnil
    · exact head_ne_hash hhash _ hhead
  have htail : tag ++ ascii [' ', '#', ' '] ++ rest =
      tag ++ 0x20 :: (ascii ['#'] ++ 0x20 :: rest) := by
    rw [append_assoc]
    rfl
  rw [dumpLine, if_neg hnot, htail, splitOn_append_cons_self_of_not_mem hsecret,
    splitOn_append_cons_self_of_not_mem htime, splitOn_append_cons_self_of_not_mem htag,
    splitOn_append_cons_self_of_not_mem (by decide)]
  rfl

theorem dumpKey_eq (hkey : w.mapKeys.lookup keyid = some key) (ids : List CKeyID) (nTime : Int) :
    dumpKey (textFunctions S.fn P) w ids (nTime, keyid) =
      some ((textFunctions S.fn P).secretToString key ++ 0x20 :: (P.encodeDumpTime nTime ++ 0x20 ::
        (dumpTag (textFunctions S.fn P) w ids keyid ++ ascii [' ', '#', ' '] ++
          (ascii ['a', 'd', 'd', 'r', '='] ++ (textFunctions S.fn P).addressToString keyid)))) := by
  rw [dumpKey, hkey, ← append_assoc _ (ascii ['a', 'd', 'd', 'r', '='])]
  rw [append_assoc (dumpTag (textFunctions S.fn P) w ids keyid) (ascii [' ', '#', ' '])]
  rfl

theorem dumpLine_dumpKey (hP : Readable P) (hkey : w.mapKeys.lookup keyid = some key)
    (hvalid : S.fn.Valid key) (htime : P.decodeDumpTime (P.encodeDumpTime nTime) = nTime)
    (hline : dumpKey (textFunctions S.fn P) w ids (nTime, keyid) = some line) :
    dumpLine (textFunctions S.fn P) line = .key key nTime (w.mapAddressBook.lookup keyid).isSome
      ((w.mapAddressBook.lookup keyid).getD []) := by
  rw [dumpKey_eq hkey] at hline
  obtain rfl := Option.some.inj hline
  have hsecret := secretToString_alphabet S.fn P key
  rw [dumpLine_fields (fun h => absurd (hsecret _ h) (by decide))
    (fun h => absurd (hsecret _ h) (by decide))
    (fun h => absurd (hP.time_graphic nTime _ h) (by decide))
    (fun h => absurd (dumpTag_graphic ids keyid _ h) (by decide)),
    readSecret, setString_secretToString hvalid]
  rw [parseLabel_dumpTag, htime]

theorem newline_not_mem_dumpKey (hP : Readable P)
    (hline : dumpKey (textFunctions S.fn P) w ids birth = some line) : 0x0a ∉ line := by
  obtain ⟨nTime, keyid⟩ := birth
  cases hkey : w.mapKeys.lookup keyid with
  | none =>
    rw [dumpKey, hkey] at hline
    cases hline
  | some key =>
    rw [dumpKey_eq hkey] at hline
    obtain rfl := Option.some.inj hline
    have hsecret : 0x0a ∉ (textFunctions S.fn P).secretToString key := fun h =>
      absurd (secretToString_alphabet S.fn P key _ h) (by decide)
    have htime : 0x0a ∉ P.encodeDumpTime nTime := fun h =>
      absurd (hP.time_graphic nTime _ h) (by decide)
    have htag : 0x0a ∉ dumpTag (textFunctions S.fn P) w ids keyid := fun h =>
      absurd (dumpTag_graphic ids keyid _ h) (by decide)
    have haddr : 0x0a ∉ (textFunctions S.fn P).addressToString keyid := fun h =>
      absurd (addressToString_alphabet S.fn P keyid _ h) (by decide)
    have hmark : 0x0a ∉ ascii [' ', '#', ' '] := by decide
    have hname : 0x0a ∉ ascii ['a', 'd', 'd', 'r', '='] := by decide
    simp only [mem_append, mem_cons, hsecret, htime, htag, haddr, hmark, hname,
      or_self, or_false, false_or]
    decide

structure Imported (S : Setting) (w : CWallet) (done : List CKeyID) (t : CWallet) : Prop where
  plain : t.fUseCrypto = false
  keys : ∀ i, t.mapKeys.lookup i = if i ∈ done then w.mapKeys.lookup i else none
  times : ∀ i ∈ done, t.mapKeyMetadata.lookup i = w.mapKeyMetadata.lookup i
  book : ∀ i, t.mapAddressBook.lookup i = if i ∈ done then w.mapAddressBook.lookup i else none
  recorded : ∀ pk, pk ∈ t.db.keymeta ∨ pk ∈ t.db.key → S.fn.getID pk ∈ done

theorem imported_empty (S : Setting) (w : CWallet) (locked : Bool) :
    Imported S w [] (CWallet.empty false locked) := by
  constructor <;> simp [CWallet.empty, Records.empty]

def importedKey (S : Setting) (t : CWallet) (key : CKey) (nTime : Int) (fLabel : Bool)
    (strLabel : Bytes) : CWallet :=
  let keyid := S.fn.getID (S.fn.getPubKey key)
  let t := storedKey S t key
  let t := { t with mapKeyMetadata := t.mapKeyMetadata.insert keyid nTime }
  if fLabel then
    { t with
      mapAddressBook := t.mapAddressBook.insert keyid strLabel
      db := { t.db with name := t.db.name.insert keyid strLabel } }
  else t

theorem importWalletLine_new (hplain : t.fUseCrypto = false)
    (hline : dumpLine T line = .key key nTime fLabel strLabel)
    (hnew : S.fn.getID (S.fn.getPubKey key) ∉ t.mapKeys)
    (hfree : S.fn.getPubKey key ∉ t.db.keymeta ∧ S.fn.getPubKey key ∉ t.db.key) :
    importWalletLine S T line t = .ok true (importedKey S t key nTime fLabel strLabel) := by
  have hhave : ¬t.haveKey (S.fn.getID (S.fn.getPubKey key)) = true := fun h =>
    hnew (of_decide_eq_true h)
  have hadd := addKeyPubKey_eq (S := S) hplain key
  rw [decide_eq_true hfree] at hadd
  rw [importWalletLine, hline]
  dsimp only
  rw [get_bind_apply, if_neg hhave, bind_apply_ok hadd, if_pos rfl]
  cases fLabel <;> rfl

section

variable (t : CWallet) (key : CKey) (nTime : Int) (fLabel : Bool) (strLabel : Bytes)

theorem importedKey_plain :
    (importedKey S t key nTime fLabel strLabel).fUseCrypto = t.fUseCrypto := by
  cases fLabel <;> rfl

theorem importedKey_keys :
    (importedKey S t key nTime fLabel strLabel).mapKeys =
      t.mapKeys.insert (S.fn.getID (S.fn.getPubKey key)) key := by
  cases fLabel <;> rfl

theorem importedKey_times (i : CKeyID) :
    (importedKey S t key nTime fLabel strLabel).mapKeyMetadata.lookup i =
      if i = S.fn.getID (S.fn.getPubKey key) then some nTime else t.mapKeyMetadata.lookup i := by
  have hmeta : (importedKey S t key nTime fLabel strLabel).mapKeyMetadata =
      (storedKey S t key).mapKeyMetadata.insert (S.fn.getID (S.fn.getPubKey key)) nTime := by
    cases fLabel <;> rfl
  rw [hmeta, lookup_insert_if]
  by_cases hi : i = S.fn.getID (S.fn.getPubKey key)
  · rw [if_pos hi, if_pos hi]
  · rw [if_neg hi, if_neg hi]
    -- the entry that `mapKeyMetadata[keyid]` may have created is the one of the key
    by_cases hmem : S.fn.getID (S.fn.getPubKey key) ∈ t.mapKeyMetadata
    · simp only [storedKey, if_pos hmem]
    · simp only [storedKey, if_neg hmem, AList.lookup_insert_ne hi]

theorem importedKey_book (i : CKeyID) :
    (importedKey S t key nTime fLabel strLabel).mapAddressBook.lookup i =
      if i = S.fn.getID (S.fn.getPubKey key) ∧ fLabel = true then some strLabel
      else t.mapAddressBook.lookup i := by
  cases fLabel with
  | false =>
    rw [if_neg (fun h => Bool.false_ne_true h.2)]
    rfl
  | true =>
    refine (lookup_insert_if _ _ _ i).trans ?_
    simp only [and_true]
    rfl

theorem importedKey_db :
    (importedKey S t key nTime fLabel strLabel).db.keymeta = (storedKey S t key).db.keymeta ∧
    (importedKey S t key nTime fLabel strLabel).db.key = (storedKey S t key).db.key := by
  cases fLabel <;> exact ⟨rfl, rfl⟩

end

theorem recorded_storedKey
    (h : pk ∈ (storedKey S t key).db.keymeta ∨ pk ∈ (storedKey S t key).db.key) :
    pk = S.fn.getPubKey key ∨ pk ∈ t.db.keymeta ∨ pk ∈ t.db.key := by
  obtain hmeta | hkey := h
  · change pk ∈ (storedRecords S t.db key _).keymeta at hmeta
    by_cases hm : S.fn.getPubKey key ∈ t.db.keymeta
    · rw [storedRecords, if_pos hm] at hmeta
      exact .inr (.inl hmeta)
    · simp only [storedRecords, if_neg hm] at hmeta
      exact ((AList.mem_insert _).mp hmeta).imp id .inl
  · obtain hkey | ⟨rfl, -⟩ := mem_storedRecords_key.mp hkey
    · exact .inr (.inr hkey)
    · exact .inl rfl

theorem Imported.step (h : Imported S w done t) (hid : S.fn.getID (S.fn.getPubKey key) = keyid)
    (hkey : w.mapKeys.lookup keyid = some key) (htime : w.mapKeyMetadata.lookup keyid = some nTime)
    (hnew : keyid ∉ done) :
    Imported S w (keyid :: done) (importedKey S t key nTime (w.mapAddressBook.lookup keyid).isSome
      ((w.mapAddressBook.lookup keyid).getD [])) := by
  subst hid
  constructor
  · rw [importedKey_plain]
    exact h.plain
  · intro i
    rw [importedKey_keys, lookup_insert_if, h.keys]
    by_cases hi : i = S.fn.getID (S.fn.getPubKey key)
    · subst hi
      simp [hkey]
    · simp [hi]
  · intro i hi
    rw [importedKey_times]
    by_cases heq : i = S.fn.getID (S.fn.getPubKey key)
    · rw [if_pos heq, heq, htime]
    · rw [if_neg heq]
      exact h.times i ((mem_cons.mp hi).resolve_left heq)
  · intro i
    rw [importedKey_book, h.book]
    by_cases hi : i = S.fn.getID (S.fn.getPubKey key)
    · subst hi
      cases w.mapAddressBook.lookup (S.fn.getID (S.fn.getPubKey key)) <;> simp [hnew]
    · simp [hi]
  · intro pk hpk
    rw [(importedKey_db _ _ _ _ _).1, (importedKey_db _ _ _ _ _).2] at hpk
    obtain rfl | hpk := recorded_storedKey hpk
    · exact mem_cons_self
    · exact mem_cons_of_mem _ (h.recorded pk hpk)

theorem importLines_skip (h : dumpLine T line = .skip) (lines : List Bytes) (fGood : Bool) :
    importLines S T (line :: lines) fGood = importLines S T lines fGood := by
  have hline : importWalletLine S T line = pure true := by
    rw [importWalletLine, h]
  rw [importLines, hline, pure_bind, Bool.and_true]

theorem importWalletLine_birth (hP : Readable P) (hw : Keyed S w) (htimes : TimesRead P w)
    (ids : List CKeyID) (hkey : w.mapKeys.lookup keyid = some key)
    (hlook : w.mapKeyMetadata.lookup keyid = some nTime) (h : Imported S w done t)
    (hfresh : keyid ∉ done) :
    ∃ line t', dumpKey (textFunctions S.fn P) w ids (nTime, keyid) = some line ∧
      importWalletLine S (textFunctions S.fn P) line t = .ok true t' ∧
        Imported S w (keyid :: done) t' := by
  obtain ⟨hid, hvalid⟩ := hw keyid key hkey
  obtain ⟨line, hline⟩ : ∃ line, dumpKey (textFunctions S.fn P) w ids (nTime, keyid) = some line :=
    ⟨_, dumpKey_eq hkey ids nTime⟩
  have hread := dumpLine_dumpKey hP hkey hvalid (htimes keyid nTime hlook) hline
  have hunknown : S.fn.getID (S.fn.getPubKey key) ∉ t.mapKeys := by
    rw [hid, ← AList.lookup_eq_none, h.keys, if_neg hfresh]
  have hunwritten : S.fn.getPubKey key ∉ t.db.keymeta ∧ S.fn.getPubKey key ∉ t.db.key := by
    rw [← not_or]
    exact fun hpk => hfresh (hid ▸ h.recorded _ hpk)
  exact ⟨line, _, hline, importWalletLine_new h.plain hread hunknown hunwritten,
    h.step hid hkey hlook hfresh⟩

theorem importLines_births (hP : Readable P) (hw : Keyed S w) (htimes : TimesRead P w)
    (ids : List CKeyID) (rest : List Bytes) (fGood : Bool) {births : List (Int × CKeyID)}
    (hbirths : ∀ b ∈ births, w.mapKeyMetadata.lookup b.2 = some b.1)
    (hnodup : (births.map Prod.snd).Nodup) {done : List CKeyID}
    (hnew : ∀ b ∈ births, b.2 ∉ done) {t : CWallet} (h : Imported S w done t) :
    ∃ done' t', Imported S w done' t' ∧
      (∀ i, i ∈ done' ↔ i ∈ done ∨ i ∈ births.map Prod.snd ∧ i ∈ w.mapKeys) ∧
      importLines S (textFunctions S.fn P) (births.filterMap (dumpKey (textFunctions S.fn P) w ids) ++ rest)
        fGood t = importLines S (textFunctions S.fn P) rest fGood t' := by
  induction births generalizing done t with
  | nil => exact ⟨done, t, h, by simp, rfl⟩
  | cons birth births ih =>
    obtain ⟨nTime, keyid⟩ := birth
    have hlook := hbirths _ mem_cons_self
    obtain ⟨hfirst, hnodup⟩ := nodup_cons.mp hnodup
    have hrest : ∀ b ∈ births, w.mapKeyMetadata.lookup b.2 = some b.1 := fun b hb =>
      hbirths b (mem_cons_of_mem _ hb)
    cases hkey : w.mapKeys.lookup keyid with
    | none =>
      have hskip : dumpKey (textFunctions S.fn P) w ids (nTime, keyid) = none := by
        rw [dumpKey, hkey]
        rfl
      have hnot := AList.lookup_eq_none.mp hkey
      obtain ⟨done', t', himp, hmem, hrun⟩ :=
        ih hrest hnodup (fun b hb => hnew b (mem_cons_of_mem _ hb)) h
      refine ⟨done', t', himp, fun i => (hmem i).trans ?_, ?_⟩
      · refine or_congr_right (and_congr_left fun hi => ?_)
        have hne : i ≠ keyid := fun heq => hnot (heq ▸ hi)
        rw [map_cons, mem_cons, or_iff_right hne]
      · rw [filterMap_cons_none hskip]
        exact hrun
    | some key =>
      obtain ⟨line, t₁, hline, hone, hstep⟩ := importWalletLine_birth hP hw htimes ids hkey
        hlook h (hnew _ mem_cons_self)
      have hlater : ∀ b ∈ births, b.2 ∉ keyid :: done := by
        intro b hb hmem
        obtain heq | hmem := mem_cons.mp hmem
        · exact hfirst (mem_map.mpr ⟨b, hb, heq⟩)
        · exact hnew b (mem_cons_of_mem _ hb) hmem
      obtain ⟨done', t', himp, hmem, hrun⟩ := ih hrest hnodup hlater hstep
      refine ⟨done', t', himp, fun i => (hmem i).trans ?_, ?_⟩
      · have hknown : keyid ∈ w.mapKeys := by
          rw [← AList.lookup_isSome, hkey]
          rfl
        rw [map_cons, mem_cons, mem_cons, or_and_right, or_comm (a := i = keyid),
          or_assoc]
        refine or_congr_right (or_congr_left ?_)
        exact ⟨fun heq => ⟨heq, heq ▸ hknown⟩, And.left⟩
      · rw [filterMap_cons_some hline, cons_append, importLines, bind_apply_ok hone,
          Bool.and_true]
        exact hrun

def vKeyBirth (w : CWallet) : List (Int × CKeyID) := (getKeyBirthTimes w).mergeSort birthLe

theorem mem_vKeyBirth :
    (nTime, keyid) ∈ vKeyBirth w ↔ nTime ≠ 0 ∧ w.mapKeyMetadata.lookup keyid = some nTime :=
  mem_mergeSort.trans mem_getKeyBirthTimes

theorem vKeyBirth_nodup (w : CWallet) : ((vKeyBirth w).map Prod.snd).Nodup := by
  have hperm : ((vKeyBirth w).map Prod.snd).Perm ((getKeyBirthTimes w).map Prod.snd) :=
    (mergeSort_perm _ _).map _
  refine hperm.nodup_iff.mpr ?_
  have hids : (getKeyBirthTimes w).map Prod.snd =
      (w.mapKeyMetadata.entries.filter fun e => e.2 ≠ 0).map Sigma.fst := by
    rw [getKeyBirthTimes, map_map]
    rfl
  rw [hids]
  exact (filter_sublist.map _).nodup w.mapKeyMetadata.nodupKeys

theorem mem_vKeyBirth_ids : keyid ∈ (vKeyBirth w).map Prod.snd ↔ HasTime w keyid := by
  rw [mem_map]
  constructor
  · rintro ⟨⟨nTime, i⟩, hmem, rfl⟩
    exact ⟨nTime, mem_vKeyBirth.mp hmem⟩
  · rintro ⟨nTime, htime⟩
    exact ⟨(nTime, keyid), mem_vKeyBirth.mpr htime, rfl⟩

theorem dumpwallet_ok (h : dumpwallet S T true w = .ok lines w') :
    ∃ ids, lines = T.dumpHeader :: [] :: ((vKeyBirth w).filterMap (dumpKey T w ids) ++
      [[], ascii ['#', ' ', 'E', 'n', 'd', ' ', 'o', 'f', ' ', 'd', 'u', 'm', 'p']]) := by
  simp only [dumpwallet, Bool.not_true, Bool.false_eq_true, if_false, get_bind_apply] at h
  cases hids : getAllReserveKeys S w with
  | ok ids t =>
    rw [bind_apply_ok hids, pure_apply] at h
    cases h
    exact ⟨ids, rfl⟩
  | error e t =>
    rw [bind_apply_error hids] at h
    cases h

theorem dumpLine_header (S : Setting) (P : Program) :
    dumpLine (textFunctions S.fn P) (textFunctions S.fn P).dumpHeader = .skip := by
  rw [dumpLine, if_pos]
  exact .inr rfl

theorem keyid_of_line (hw : Keyed S w) (hkey : w.mapKeys.lookup keyid = some key)
    (hline : dumpKey (textFunctions S.fn P) w ids (nTime, i) =
      some ((textFunctions S.fn P).secretToString key ++ 0x20 :: rest)) : i = keyid := by
  cases hi : w.mapKeys.lookup i with
  | none =>
    rw [dumpKey, hi] at hline
    cases hline
  | some key' =>
    have hblank (key : CKey) : 0x20 ∉ (textFunctions S.fn P).secretToString key := fun h =>
      absurd (secretToString_alphabet S.fn P key _ h) (by decide)
    rw [dumpKey_eq hi] at hline
    have hsplit := congrArg (List.splitOn 0x20) (Option.some.inj hline)
    rw [splitOn_append_cons_self_of_not_mem (hblank key'),
      splitOn_append_cons_self_of_not_mem (hblank key)] at hsplit
    have hread := congrArg (textFunctions S.fn P).setString (List.cons.inj hsplit).1
    rw [setString_secretToString (hw i key' hi).2,
      setString_secretToString (hw keyid key hkey).2] at hread
    obtain rfl := Option.some.inj (Option.some.inj hread)
    exact (hw i key' hi).1.symm.trans (hw keyid key' hkey).1

theorem wrote_iff (hw : Keyed S w) (h : dumpwallet S (textFunctions S.fn P) true w = .ok lines w')
    (keyid : CKeyID) :
    Wrote (textFunctions S.fn P) w lines keyid ↔ HasTime w keyid ∧ keyid ∈ w.mapKeys := by
  obtain ⟨ids, rfl⟩ := dumpwallet_ok h
  constructor
  · rintro ⟨key, rest, hkey, hmem⟩
    have hknown : keyid ∈ w.mapKeys := by
      rw [← AList.lookup_isSome, hkey]
      rfl
    refine ⟨?_, hknown⟩
    have hhash := head_ne_hash (fun h => absurd (secretToString_alphabet S.fn P key _ h) (by decide)) rest
    obtain heq | hmem := mem_cons.mp hmem
    · exact absurd (congrArg head? heq) hhash
    obtain heq | hmem := mem_cons.mp hmem
    · simp at heq
    obtain hmem | hmem := mem_append.mp hmem
    · obtain ⟨⟨nTime, i⟩, hbirth, hline⟩ := mem_filterMap.mp hmem
      obtain rfl := keyid_of_line hw hkey hline
      exact ⟨nTime, mem_vKeyBirth.mp hbirth⟩
    obtain heq | hmem := mem_cons.mp hmem
    · simp at heq
    · exact absurd (congrArg head? (mem_singleton.mp hmem)) hhash
  · rintro ⟨⟨nTime, htime⟩, hknown⟩
    obtain ⟨key, hkey⟩ := Option.isSome_iff_exists.mp (AList.lookup_isSome.mpr hknown)
    refine ⟨key, _, hkey, mem_cons_of_mem _ (mem_cons_of_mem _ (mem_append_left _
      (mem_filterMap.mpr ⟨(nTime, keyid), mem_vKeyBirth.mpr htime, dumpKey_eq hkey ids nTime⟩)))⟩

theorem newline_not_mem_dumpwallet (hP : Readable P)
    (h : dumpwallet S (textFunctions S.fn P) true w = .ok lines w') :
    ∀ line ∈ lines, 0x0a ∉ line := by
  obtain ⟨ids, rfl⟩ := dumpwallet_ok h
  intro line hline
  obtain rfl | hline := mem_cons.mp hline
  · have hbuild := hP.build_line
    have hdate := hP.date_line
    have hopen := (by decide : 0x0a ∉ ascii [' ', '('])
    have hclose := (by decide : 0x0a ∉ ascii [')'])
    change 0x0a ∉ dumpHeader P
    rw [dumpHeader]
    simp only [mem_append, hbuild, hdate, hopen, hclose, or_false]
    decide
  obtain rfl | hline := mem_cons.mp hline
  · exact not_mem_nil
  obtain hline | hline := mem_append.mp hline
  · obtain ⟨birth, -, hbirth⟩ := mem_filterMap.mp hline
    exact newline_not_mem_dumpKey hP hbirth
  · have hend : ∀ line ∈ [[], ascii ['#', ' ', 'E', 'n', 'd', ' ', 'o', 'f', ' ', 'd', 'u', 'm',
        'p']], 0x0a ∉ line := by decide
    exact hend line hline

/-- Importing a dump into an empty wallet restores the keys in it with their times and names, and
nothing else. -/
theorem importwallet_dumpwallet (hP : Readable P) (hw : Keyed S w) (htimes : TimesRead P w)
    {lines : List Bytes} {w' : CWallet}
    (hdump : dumpwallet S (textFunctions S.fn P) true w = .ok lines w') (locked : Bool) :
    ∃ t, importwallet S (textFunctions S.fn P) (some (readLines (fileText lines)))
        (CWallet.empty false locked) = .ok true t ∧
      (∀ keyid, Wrote (textFunctions S.fn P) w lines keyid →
        t.mapKeys.lookup keyid = w.mapKeys.lookup keyid ∧
        t.mapKeyMetadata.lookup keyid = w.mapKeyMetadata.lookup keyid ∧
        t.mapAddressBook.lookup keyid = w.mapAddressBook.lookup keyid) ∧
      ∀ keyid, ¬Wrote (textFunctions S.fn P) w lines keyid →
        t.mapKeys.lookup keyid = none ∧ t.mapAddressBook.lookup keyid = none := by
  have hwrote := wrote_iff hw hdump
  have hread := readLines_fileText (newline_not_mem_dumpwallet hP hdump)
  obtain ⟨ids, hlines⟩ := dumpwallet_ok hdump
  obtain ⟨done, t, himp, hdone, hrun⟩ := importLines_births hP hw htimes ids
    [[], ascii ['#', ' ', 'E', 'n', 'd', ' ', 'o', 'f', ' ', 'd', 'u', 'm', 'p'], []] true
    (fun b hb => (mem_vKeyBirth.mp hb).2) (vKeyBirth_nodup w) (fun _ _ => not_mem_nil)
    (imported_empty S w locked)
  have hmem (keyid : CKeyID) : keyid ∈ done ↔ Wrote (textFunctions S.fn P) w lines keyid := by
    rw [hwrote, hdone, mem_vKeyBirth_ids, or_iff_right not_mem_nil]
  refine ⟨t, ?_, fun keyid hkeyid => ?_, fun keyid hkeyid => ?_⟩
  · rw [hread, hlines, importwallet]
    simp only [cons_append, append_assoc, nil_append]
    rw [importLines_skip (dumpLine_header S P), importLines_skip (by rfl), hrun,
      importLines_skip (by rfl), importLines_skip (by rfl), importLines_skip (by rfl)]
    rfl
  · have hin := (hmem keyid).mpr hkeyid
    exact ⟨by rw [himp.keys, if_pos hin], himp.times keyid hin, by rw [himp.book, if_pos hin]⟩
  · have hout := fun hin => hkeyid ((hmem keyid).mp hin)
    exact ⟨by rw [himp.keys, if_neg hout], by rw [himp.book, if_neg hout]⟩

def sampleDumped : CWallet :=
  { CWallet.empty false true with
    mapKeys := AList.insert (sampleID 1) (sampleKey 1) ∅
    mapKeyMetadata := AList.insert (sampleID 1) 1500000000 ∅
    mapAddressBook := AList.insert (sampleID 1) [0x20, 0x25, 0xff] ∅ }

theorem importwallet_dumpwallet_labelled :
    ∃ lines t, dumpwallet oneKey dumpTexts true sampleDumped = .ok lines sampleDumped ∧
      importwallet oneKey dumpTexts (some (readLines (fileText lines)))
        (CWallet.empty false true) = .ok true t ∧
      t.mapKeys.lookup (sampleID 1) = some (sampleKey 1) ∧
      t.mapKeyMetadata.lookup (sampleID 1) = some 1500000000 ∧
      t.mapAddressBook.lookup (sampleID 1) = some [0x20, 0x25, 0xff] := by
  have hreadable : Readable sampleProgram := by
    refine ⟨fun nTime => ?_, by decide +kernel, by decide +kernel⟩
    dsimp only [sampleProgram]
    split_ifs <;> decide +kernel
  have hkeyed : Keyed oneKey sampleDumped := by
    intro keyid key hkey
    rw [sampleDumped, lookup_insert_if] at hkey
    split_ifs at hkey with hid
    · cases hkey
      exact ⟨hid ▸ by decide +kernel, sampleKey_valid⟩
    · cases hkey
  have htimes : TimesRead sampleProgram sampleDumped := by
    intro keyid nTime hlook
    rw [sampleDumped, lookup_insert_if] at hlook
    split_ifs at hlook
    · cases hlook
      decide +kernel
    · cases hlook
  have hids : getAllReserveKeys oneKey sampleDumped = .ok [] sampleDumped := by
    simp only [getAllReserveKeys, get_bind_apply, CWallet.poolOrder]
    rw [show sampleDumped.setKeyPool = ∅ from rfl, Finset.sort_empty, mapM_nil, pure_apply]
  obtain ⟨lines, hdump⟩ : ∃ lines, dumpwallet oneKey dumpTexts true sampleDumped =
      .ok lines sampleDumped := ⟨_, bind_apply_ok hids⟩
  obtain ⟨t, himport, hwritten, -⟩ := importwallet_dumpwallet hreadable hkeyed htimes hdump true
  have hwrote := (wrote_iff hkeyed hdump (sampleID 1)).mpr
    ⟨⟨1500000000, by decide, AList.lookup_insert _⟩, (AList.mem_insert _).mpr (Or.inl rfl)⟩
  obtain ⟨hkey, htime, hbook⟩ := hwritten _ hwrote
  exact ⟨lines, t, hdump, himport, hkey.trans (AList.lookup_insert _),
    htime.trans (AList.lookup_insert _), hbook.trans (AList.lookup_insert _)⟩

end Utsuite.WalletRoundTrip
