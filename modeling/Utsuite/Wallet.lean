import Mathlib.Data.Finset.Max
import Mathlib.Data.Finset.Sort
import Mathlib.Data.List.AList
import Utsuite.ByteWords
import Utsuite.Hoare

namespace Utsuite.Wallet

open ByteWords

abbrev CPubKey := Bytes
abbrev CKeyID := Bytes
abbrev CPrivKey := Bytes

structure CKey where
  fCompressed : Bool
  vch : Bytes
  deriving DecidableEq

/-- The functions of `CKey` and `CPubKey` that a wallet calls. A key of 32 bytes that pass `Check`
and that was written with `GetPrivKey` is read back by `Load`. -/
structure KeyFunctions where
  check : Bytes → Bool
  getPubKey : CKey → CPubKey
  getID : CPubKey → CKeyID
  getPrivKey : CKey → CPrivKey
  load : CPrivKey → CPubKey → Bool → Option CKey
  hash : Bytes → Bytes
  load_getPrivKey : ∀ key : CKey, key.vch.length = 32 → check key.vch = true → ∀ fSkipCheck,
    load (getPrivKey key) (getPubKey key) fSkipCheck = some key

def KeyFunctions.Valid (fn : KeyFunctions) (key : CKey) : Prop :=
  key.vch.length = 32 ∧ fn.check key.vch = true

/-- What a wallet meets on its way: the new keys with their times, and the option `-keypool`. -/
structure Setting where
  fn : KeyFunctions
  makeNewKey : Nat → CKey
  creationTime : Nat → Int
  poolTime : Nat → Int
  keypool : Int

structure CKeyPool where
  nTime : Int
  vchPubKey : CPubKey
  deriving DecidableEq

structure Records where
  key : AList fun _ : CPubKey => CPrivKey × Bytes
  ckey : AList fun _ : CPubKey => CKey
  keymeta : AList fun _ : CPubKey => Int
  pool : AList fun _ : Int => CKeyPool
  name : AList fun _ : CKeyID => Bytes

structure CReserveKey where
  nIndex : Int
  vchPubKey : Option CPubKey
  deriving DecidableEq

/-- `mapKeys` stands for `mapCryptedKeys` as well, and `handedOut` records the keys given away. -/
structure CWallet where
  mapKeys : AList fun _ : CKeyID => CKey
  mapKeyMetadata : AList fun _ : CKeyID => Int
  mapAddressBook : AList fun _ : CKeyID => Bytes
  setKeyPool : Finset Int
  fUseCrypto : Bool
  locked : Bool
  db : Records
  generated : Nat
  reserveKeys : Nat → CReserveKey
  handedOut : List CPubKey

def Records.empty : Records := ⟨∅, ∅, ∅, ∅, ∅⟩

def CWallet.empty (fUseCrypto locked : Bool) : CWallet where
  mapKeys := ∅
  mapKeyMetadata := ∅
  mapAddressBook := ∅
  setKeyPool := ∅
  fUseCrypto := fUseCrypto
  locked := locked
  db := .empty
  generated := 0
  reserveKeys := fun _ => ⟨-1, none⟩
  handedOut := []

inductive Thrown
  | generateNewKeyAddKeyFailed
  | reserveReadFailed
  | reserveUnknownKey
  | reserveReadFailedHashes
  | reserveUnknownKeyHashes
  | keypoolRanOut
  | invalidPrivateKey
  | keyOutsideRange
  | errorAddingKey
  | cannotOpenFile
  | noExtension
  | wrongExtension
  | assertion
  | intOverflow
  deriving DecidableEq

abbrev WalletM := EStateM Thrown CWallet

variable (S : Setting)

def CWallet.isLocked (w : CWallet) : Bool := w.fUseCrypto && w.locked

def CWallet.haveKey (w : CWallet) (address : CKeyID) : Bool := decide (address ∈ w.mapKeys)

/-- `Lock`, which makes an encrypted wallet of one without keys. -/
def lock : WalletM Bool := do
  let w ← get
  if !w.fUseCrypto && !w.mapKeys.entries.isEmpty then
    pure false
  else
    set { w with fUseCrypto := true, locked := true }
    pure true

def unlock (passphraseOk : Bool) : WalletM Bool := do
  let w ← get
  if passphraseOk && w.fUseCrypto then
    set { w with locked := false }
    pure true
  else
    pure false

def keyMetadata (keyid : CKeyID) : WalletM Int := do
  let w ← get
  match w.mapKeyMetadata.lookup keyid with
  | some nCreateTime => pure nCreateTime
  | none =>
    set { w with mapKeyMetadata := w.mapKeyMetadata.insert keyid 0 }
    pure 0

def writeKey (vchPubKey : CPubKey) (vchPrivKey : CPrivKey) (keyMeta : Int) : WalletM Bool := do
  let w ← get
  if vchPubKey ∈ w.db.keymeta then
    pure false
  else
    let db := { w.db with keymeta := w.db.keymeta.insert vchPubKey keyMeta }
    set { w with db }
    if vchPubKey ∈ db.key then
      pure false
    else
      let value := (vchPrivKey, S.fn.hash (vchPubKey ++ vchPrivKey))
      set { w with db := { db with key := db.key.insert vchPubKey value } }
      pure true

def writeCryptedKey (vchPubKey : CPubKey) (secret : CKey) (keyMeta : Int) : WalletM Bool := do
  let w ← get
  let db := { w.db with keymeta := w.db.keymeta.insert vchPubKey keyMeta }
  set { w with db }
  if vchPubKey ∈ db.ckey then
    pure false
  else
    set { w with
      db := { db with ckey := db.ckey.insert vchPubKey secret, key := db.key.erase vchPubKey } }
    pure true

def addKeyPubKey (secret : CKey) (pubkey : CPubKey) : WalletM Bool := do
  let w ← get
  if w.isLocked then
    pure false
  else
    set { w with mapKeys := w.mapKeys.insert (S.fn.getID pubkey) secret }
    let keyMeta ← keyMetadata (S.fn.getID pubkey)
    if w.fUseCrypto then
      writeCryptedKey pubkey secret keyMeta
    else
      writeKey S pubkey (S.fn.getPrivKey secret) keyMeta

def generateNewKey : WalletM CPubKey := do
  let w ← get
  let secret := S.makeNewKey w.generated
  let pubkey := S.fn.getPubKey secret
  set { w with
    generated := w.generated + 1
    mapKeyMetadata :=
      w.mapKeyMetadata.insert (S.fn.getID pubkey) (S.creationTime w.generated) }
  if !(← addKeyPubKey S secret pubkey) then
    throw .generateNewKeyAddKeyFailed
  pure pubkey

def addPoolKey (nIndex : Int) : WalletM Unit := do
  let nTime := S.poolTime (← get).generated
  let vchPubKey ← generateNewKey S
  modify fun w => { w with
    db := { w.db with pool := w.db.pool.insert nIndex ⟨nTime, vchPubKey⟩ }
    setKeyPool := insert nIndex w.setKeyPool }

def keypoolSize : Int := max S.keypool 0

abbrev CWallet.poolOrder (w : CWallet) : List Int := w.setKeyPool.sort (· ≤ ·)

def cleared (w : CWallet) : CWallet :=
  { w with
    db := { w.db with
      pool := w.poolOrder.foldl (fun pool nIndex => pool.erase nIndex) w.db.pool }
    setKeyPool := ∅ }

def newKeyPool : WalletM Bool := do
  modify cleared
  if (← get).isLocked then
    pure false
  else
    let nKeys := keypoolSize S
    -- the counter of the loop is an `int`
    if nKeys > 2147483647 then
      throw .intOverflow
    else
      (List.range nKeys.toNat).forM fun i => addPoolKey S (i + 1)
      pure true

def nEnd (setKeyPool : Finset Int) : Int :=
  if h : setKeyPool.Nonempty then setKeyPool.max' h + 1 else 1

def topUpLoop (target : Nat) : Nat → WalletM Unit
  | 0 => pure ()
  | rounds + 1 => do
    let w ← get
    if w.setKeyPool.card < target then
      addPoolKey S (nEnd w.setKeyPool)
      topUpLoop target rounds
    else
      pure ()

def targetSize (kpSize : UInt32) : Nat :=
  ((if kpSize > 0 then kpSize else UInt32.ofInt (keypoolSize S)) + 1).toNat

def topUpKeyPool (kpSize : UInt32) : WalletM Bool := do
  if (← get).isLocked then
    pure false
  else
    topUpLoop S (targetSize S kpSize) (targetSize S kpSize)
    pure true

def takeOldest (assign : Int → WalletM Unit) : WalletM (Int × Option CKeyPool) := do
  let w ← get
  if h : w.setKeyPool.Nonempty then
    let nIndex := w.setKeyPool.min' h
    assign nIndex
    modify fun w => { w with setKeyPool := w.setKeyPool.erase nIndex }
    match w.db.pool.lookup nIndex with
    | none => throw .reserveReadFailed
    | some keypool =>
      if w.haveKey (S.fn.getID keypool.vchPubKey) then
        pure (nIndex, some keypool)
      else
        throw .reserveUnknownKey
  else
    pure (-1, none)

def topUpIfUnlocked : WalletM Unit := do
  if (← get).isLocked then
    pure ()
  else
    discard (topUpKeyPool S 0)

/-- `ReserveKeyFromKeyPool`, where `assign` is an assignment to the parameter `nIndex`. -/
def reserveKeyFromKeyPool (assign : Int → WalletM Unit) : WalletM (Int × Option CKeyPool) := do
  assign (-1)
  topUpIfUnlocked S
  takeOldest S assign

def keepKey (nIndex : Int) : WalletM Unit :=
  modify fun w => { w with db := { w.db with pool := w.db.pool.erase nIndex } }

def returnKey (nIndex : Int) : WalletM Unit :=
  modify fun w => { w with setKeyPool := insert nIndex w.setKeyPool }

def handOut (vchPubKey : CPubKey) : WalletM Unit :=
  modify fun w => { w with handedOut := vchPubKey :: w.handedOut }

def getKeyFromPool : WalletM (Option CPubKey) := do
  match ← reserveKeyFromKeyPool S fun _ => pure () with
  | (nIndex, some keypool) =>
    keepKey nIndex
    handOut keypool.vchPubKey
    pure (some keypool.vchPubKey)
  | (_, none) =>
    if (← get).isLocked then
      pure none
    else
      let result ← generateNewKey S
      handOut result
      pure (some result)

def getOldestKeyPoolTime (now : Int) : WalletM Int := do
  match ← reserveKeyFromKeyPool S fun _ => pure () with
  | (nIndex, some keypool) =>
    returnKey nIndex
    pure keypool.nTime
  | (_, none) => pure now

def setReserveKey (holder : Nat) (f : CReserveKey → CReserveKey) : WalletM Unit :=
  modify fun w => { w with
    reserveKeys := Function.update w.reserveKeys holder (f (w.reserveKeys holder)) }

def getReservedKey (holder : Nat) : WalletM (Option CPubKey) := do
  let w ← get
  if (w.reserveKeys holder).nIndex = -1 then
    match ← reserveKeyFromKeyPool S fun nIndex =>
        setReserveKey holder fun r => { r with nIndex } with
    | (_, some keypool) =>
      setReserveKey holder fun r => { r with vchPubKey := some keypool.vchPubKey }
      pure (some keypool.vchPubKey)
    | (_, none) => pure none
  else
    match (w.reserveKeys holder).vchPubKey with
    | none => throw .assertion
    | some vchPubKey => pure (some vchPubKey)

def reserveKeepKey (holder : Nat) : WalletM Unit := do
  let r := (← get).reserveKeys holder
  if r.nIndex ≠ -1 then
    keepKey r.nIndex
    match r.vchPubKey with
    | some vchPubKey => handOut vchPubKey
    | none => pure ()
  setReserveKey holder fun _ => ⟨-1, none⟩

def reserveReturnKey (holder : Nat) : WalletM Unit := do
  let r := (← get).reserveKeys holder
  if r.nIndex ≠ -1 then
    returnKey r.nIndex
  setReserveKey holder fun _ => ⟨-1, none⟩

section

variable {α β γ : Type} [DecidableEq β] {f : α → β} {g : α → γ} {b : β}

theorem lookup_inserts_of_ne (as : List α) (h : ∀ a ∈ as, f a ≠ b) (m : AList fun _ : β => γ) :
    (as.foldl (fun m a => m.insert (f a) (g a)) m).lookup b = m.lookup b := by
  induction as generalizing m with
  | nil => rfl
  | cons a as ih =>
    obtain ⟨ha, has⟩ := List.forall_mem_cons.mp h
    rw [List.foldl_cons, ih has, AList.lookup_insert_ne ha.symm]

theorem lookup_inserts (as : List α) (h : ∃ a ∈ as, f a = b) (m : AList fun _ : β => γ) :
    ∃ a ∈ as, f a = b ∧ (as.foldl (fun m a => m.insert (f a) (g a)) m).lookup b = some (g a) := by
  induction as generalizing m with
  | nil => simp at h
  | cons a as ih =>
    by_cases hlater : ∃ a ∈ as, f a = b
    · obtain ⟨a', ha', hlook⟩ := ih hlater (m.insert (f a) (g a))
      exact ⟨a', List.mem_cons_of_mem _ ha', hlook⟩
    · obtain rfl : f a = b := by simpa [hlater] using h
      refine ⟨a, List.mem_cons_self, rfl, ?_⟩
      rw [List.foldl_cons, lookup_inserts_of_ne as fun a' ha' heq => hlater ⟨a', ha', heq⟩]
      exact AList.lookup_insert _

end

end Utsuite.Wallet
