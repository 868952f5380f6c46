import Utsuite.Wallet

namespace Utsuite.WalletFile

open ByteWords Wallet

def ascii (cs : List Char) : Bytes := cs.map Char.toUInt8

/-- The texts of keys, addresses, times and labels. A secret with the right length and version may
still hold a key that is not valid. It is read as `some none`. -/
structure TextFunctions (fn : KeyFunctions) where
  setString : Bytes → Option (Option CKey)
  setString_valid : ∀ str key, setString str = some (some key) → fn.Valid key
  secretToString : CKey → Bytes
  addressToString : CKeyID → Bytes
  decodeDumpTime : Bytes → Int
  encodeDumpTime : Int → Bytes
  decodeDumpString : Bytes → Bytes
  encodeDumpString : Bytes → Bytes
  dumpHeader : Bytes

variable {fn : KeyFunctions} (S : Setting) (T : TextFunctions fn)

def setAddressBook (address : CKeyID) (strName : Bytes) : WalletM Unit :=
  modify fun w => { w with
    mapAddressBook := w.mapAddressBook.insert address strName
    db := { w.db with name := w.db.name.insert address strName } }

def getnewaddress (strAccount : Bytes) : WalletM Bytes := do
  topUpIfUnlocked S
  match ← getKeyFromPool S with
  | none => throw .keypoolRanOut
  | some newKey =>
    setAddressBook (S.fn.getID newKey) strAccount
    pure (T.addressToString (S.fn.getID newKey))

def setCreateTime (keyid : CKeyID) (nTime : Int) : WalletM Unit :=
  modify fun w => { w with mapKeyMetadata := w.mapKeyMetadata.insert keyid nTime }

def importprivkey (strSecret : Bytes) : WalletM Bool := do
  match T.setString strSecret with
  | none => throw .invalidPrivateKey
  | some none => throw .keyOutsideRange
  | some (some key) =>
    let pubkey := S.fn.getPubKey key
    let vchAddress := S.fn.getID pubkey
    setAddressBook vchAddress []
    if (← get).haveKey vchAddress then
      pure false
    else
      setCreateTime vchAddress 1
      if ← addKeyPubKey S key pubkey then
        pure true
      else
        throw .errorAddingKey

inductive Line
  | skip
  | invalid
  | key (key : CKey) (nTime : Int) (fLabel : Bool) (strLabel : Bytes)

/-- A secret that is read has to hold a valid key, since `GetPubKey` asserts it. -/
def readSecret (field : Bytes) (found : CKey → Line) : Line :=
  match T.setString field with
  | none => .skip
  | some none => .invalid
  | some (some key) => found key

def electrumLine (line : Bytes) : Line :=
  if line = [] ∨ line = ascii ['a', 'd', 'd', 'r', 'e', 's', 's', ',', 'p', 'r', 'i', 'v', 'a',
      't', 'e', '_', 'k', 'e', 'y'] then .skip
  else match line.splitOn 0x2c with
    | _ :: secret :: _ => readSecret T secret fun key => .key key 0 false []
    | _ => .skip

def parseLabel : List Bytes → Bool × Bytes → Bool × Bytes
  | [], label => label
  | field :: fields, (fLabel, strLabel) =>
    if field.head? = some 0x23 then (fLabel, strLabel)
    else if (ascii ['l', 'a', 'b', 'e', 'l', '=']).isPrefixOf field then
      parseLabel fields (true, T.decodeDumpString (field.drop 6))
    else if field = ascii ['c', 'h', 'a', 'n', 'g', 'e', '=', '1'] ∨
        field = ascii ['r', 'e', 's', 'e', 'r', 'v', 'e', '=', '1'] then
      parseLabel fields (false, strLabel)
    else parseLabel fields (fLabel, strLabel)

def dumpLine (line : Bytes) : Line :=
  if line = [] ∨ line.head? = some 0x23 then .skip
  else match line.splitOn 0x20 with
    | secret :: time :: fields => readSecret T secret fun key =>
      let label := parseLabel T fields (true, [])
      .key key (T.decodeDumpTime time) label.1 label.2
    | _ => .skip

/-- A line of an Electrum file. What `AddKeyPubKey` returns for its key is lost. -/
def importElectrumLine (line : Bytes) : WalletM Unit :=
  match electrumLine T line with
  | .skip => pure ()
  | .invalid => throw .assertion
  | .key key _ _ _ => do
    if (← get).haveKey (S.fn.getID (S.fn.getPubKey key)) then
      pure ()
    else
      discard (addKeyPubKey S key (S.fn.getPubKey key))

def fileExt (strFileName : Bytes) : Option Bytes :=
  if 0x2e ∈ strFileName then (strFileName.splitOn 0x2e).getLast? else none

def importelectrumwallet (strFileName : Bytes) (file : Option (List Bytes)) : WalletM Bool := do
  match fileExt strFileName with
  | none => throw .noExtension
  | some strFileExt =>
    if strFileExt ≠ ascii ['j', 's', 'o', 'n'] ∧ strFileExt ≠ ascii ['c', 's', 'v'] then
      throw .wrongExtension
    else match file with
      | none => throw .cannotOpenFile
      | some lines =>
        if strFileExt = ascii ['c', 's', 'v'] then
          lines.forM (importElectrumLine S T)
        pure true

def importWalletLine (line : Bytes) : WalletM Bool :=
  match dumpLine T line with
  | .skip => pure true
  | .invalid => throw .assertion
  | .key key nTime fLabel strLabel => do
    let pubkey := S.fn.getPubKey key
    let keyid := S.fn.getID pubkey
    if (← get).haveKey keyid then
      pure true
    else if ← addKeyPubKey S key pubkey then
      setCreateTime keyid nTime
      if fLabel then
        setAddressBook keyid strLabel
      pure true
    else
      pure false

def importLines : List Bytes → Bool → WalletM Bool
  | [], fGood => pure fGood
  | line :: lines, fGood => do
    let good ← importWalletLine S T line
    importLines lines (fGood && good)

def importwallet : Option (List Bytes) → WalletM Bool
  | none => pure false
  | some lines => importLines S T lines true

/-- A key record. If its hash is not null, the hash is compared and `Load` skips its own check. -/
def loadKey (mapKeys : AList fun _ : CKeyID => CKey) (vchPubKey : CPubKey)
    (value : CPrivKey × Bytes) : AList fun _ : CKeyID => CKey :=
  let fSkipCheck := value.2.any (· ≠ 0)
  if fSkipCheck ∧ S.fn.hash (vchPubKey ++ value.1) ≠ value.2 then mapKeys
  else match S.fn.load value.1 vchPubKey fSkipCheck with
    | none => mapKeys
    | some key => mapKeys.insert (S.fn.getID vchPubKey) key

def loadPoolTime (mapKeyMetadata : AList fun _ : CKeyID => Int) (keypool : CKeyPool) :
    AList fun _ : CKeyID => Int :=
  let keyid := S.fn.getID keypool.vchPubKey
  if keyid ∈ mapKeyMetadata then mapKeyMetadata else mapKeyMetadata.insert keyid keypool.nTime

/-- The times of the keys. `pool` records come first and give a default to keys without metadata. -/
def loadMetadata (db : Records) : AList fun _ : CKeyID => Int :=
  let pools := db.pool.entries.foldl (fun m e => loadPoolTime S m e.2) ∅
  db.keymeta.entries.foldl (fun m e => m.insert (S.fn.getID e.1) e.2) pools

/-- The wallet as it is read from its file. That of a plain wallet has no `ckey` records. -/
def reload : WalletM Unit :=
  modify fun w => { w with
    mapKeys := w.db.key.entries.foldl (fun m e => loadKey S m e.1 e.2) ∅
    mapKeyMetadata := loadMetadata S w.db
    mapAddressBook := w.db.name
    setKeyPool := w.db.pool.keys.toFinset
    reserveKeys := fun _ => ⟨-1, none⟩ }

/-- The times of the keys in a dump. No block heights are inferred, because that map is empty. -/
def getKeyBirthTimes (w : CWallet) : List (Int × CKeyID) :=
  (w.mapKeyMetadata.entries.filter fun e => e.2 ≠ 0).map fun e => (e.2, e.1)

def reserveKeyID (id : Int) : WalletM CKeyID := do
  let w ← get
  match w.db.pool.lookup id with
  | none => throw .reserveReadFailedHashes
  | some keypool =>
    if w.haveKey (S.fn.getID keypool.vchPubKey) then
      pure (S.fn.getID keypool.vchPubKey)
    else
      throw .reserveUnknownKeyHashes

def getAllReserveKeys : WalletM (List CKeyID) := do
  (← get).poolOrder.mapM (reserveKeyID S)

def birthLe (a b : Int × CKeyID) : Bool :=
  decide (a.1 < b.1) || (decide (a.1 = b.1) && decide (a.2 ≤ b.2))

def dumpTag (w : CWallet) (setKeyPool : List CKeyID) (keyid : CKeyID) : Bytes :=
  match w.mapAddressBook.lookup keyid with
  | some name => ascii ['l', 'a', 'b', 'e', 'l', '='] ++ T.encodeDumpString name
  | none =>
    if keyid ∈ setKeyPool then ascii ['r', 'e', 's', 'e', 'r', 'v', 'e', '=', '1']
    else ascii ['c', 'h', 'a', 'n', 'g', 'e', '=', '1']

def dumpKey (w : CWallet) (setKeyPool : List CKeyID) (birth : Int × CKeyID) : Option Bytes :=
  (w.mapKeys.lookup birth.2).map fun key =>
    T.secretToString key ++ 0x20 :: (T.encodeDumpTime birth.1 ++ 0x20 ::
      (dumpTag T w setKeyPool birth.2 ++ ascii [' ', '#', ' ', 'a', 'd', 'd', 'r', '='] ++
        T.addressToString birth.2))

def dumpwallet (canOpen : Bool) : WalletM (List Bytes) := do
  if !canOpen then
    throw .cannotOpenFile
  else
    let w ← get
    let setKeyPool ← getAllReserveKeys S
    let vKeyBirth := (getKeyBirthTimes w).mergeSort birthLe
    pure (T.dumpHeader :: [] :: (vKeyBirth.filterMap (dumpKey T w setKeyPool) ++
      [[], ascii ['#', ' ', 'E', 'n', 'd', ' ', 'o', 'f', ' ', 'd', 'u', 'm', 'p']]))

end Utsuite.WalletFile
