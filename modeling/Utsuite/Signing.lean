import Utsuite.SignatureHash
import Utsuite.Standard
import Utsuite.Wallet

namespace Utsuite.Signing

open ByteWords Transaction Script Interpreter SignatureHash Standard
open ScriptSign (txnouttype pushData pushAll required pubkeys setScriptSig clearScriptSigs
  clearScriptSigs_setScriptSig)
open Wallet (CKey CPubKey CKeyID)

structure Curve where
  getPubKey : CKey → CPubKey
  sign : CKey → uint256 → Bytes
  verify : CPubKey → uint256 → Bytes → Bool

def getLen (chHeader : UInt8) : Nat :=
  if chHeader = 2 ∨ chHeader = 3 then 33
  else if chHeader = 4 ∨ chHeader = 6 ∨ chHeader = 7 then 65
  else 0

def toPubKey (vch : Bytes) : CPubKey :=
  match vch with
  | [] => []
  | chHeader :: rest =>
    if getLen chHeader = (chHeader :: rest).length then chHeader :: rest else []

def isValid (pubkey : CPubKey) : Bool := !pubkey.isEmpty

def getID (P : Primitives) (pubkey : CPubKey) : CKeyID := (P.hash160 pubkey).1

section

variable (P : Primitives) (E : Curve) (txTo : CMutableTransaction) (nIn : Nat)

def checkSig (vchSigIn vchPubKey : Bytes) (scriptCode : CScript) : Bool :=
  let pubkey := toPubKey vchPubKey
  if !isValid pubkey then false
  else
    match vchSigIn.getLast? with
    | none => false
    | some nHashType =>
      E.verify pubkey (signatureHash P scriptCode txTo nIn (Int32.ofNat nHashType.toNat))
        vchSigIn.dropLast

def LOCKTIME_THRESHOLD : Nat := 500000000
def SEQUENCE_FINAL : UInt32 := 0xffffffff
def SEQUENCE_LOCKTIME_TYPE_FLAG : Nat := 2 ^ 22
def SEQUENCE_LOCKTIME_MASK : Nat := 0xffff

def sameKind (threshold a b : Int) : Bool :=
  (a < threshold && b < threshold) || (a ≥ threshold && b ≥ threshold)

def checkLockTime (nLockTime : Int) : Bool :=
  sameKind LOCKTIME_THRESHOLD txTo.nLockTime.toNat nLockTime && nLockTime ≤ txTo.nLockTime.toNat &&
    (txTo.vin[nIn]?.any fun txin => txin.nSequence != SEQUENCE_FINAL)

def maskSequence (nSequence : Int) : Nat :=
  (nSequence % 2 ^ 64).toNat &&& (SEQUENCE_LOCKTIME_TYPE_FLAG ||| SEQUENCE_LOCKTIME_MASK)

def checkSequence (nSequence : Int) : Bool :=
  txTo.vin[nIn]?.any fun txin =>
    let txToSequence : Nat := txin.nSequence.toNat
    let txToSequenceMasked := maskSequence txToSequence
    let nSequenceMasked := maskSequence nSequence
    txTo.nVersion.toUInt32 ≥ 2 && (txToSequence &&& SEQUENCE_LOCKTIME_DISABLE_FLAG) == 0 &&
      sameKind SEQUENCE_LOCKTIME_TYPE_FLAG txToSequenceMasked nSequenceMasked &&
      nSequenceMasked ≤ txToSequenceMasked

def transactionSignatureChecker : BaseSignatureChecker :=
  ⟨checkSig P E txTo nIn, checkLockTime txTo nIn, checkSequence txTo nIn⟩

end

section

open CTransactionSignatureSerializer

/-- What is signed does not depend on the scriptSigs of the transaction. -/
theorem hashed_clearScriptSigs (scriptCode : CScript) (tx : CMutableTransaction) (nIn : Nat)
    (nHashType : Int32) :
    hashed scriptCode (clearScriptSigs tx) nIn nHashType = hashed scriptCode tx nIn nHashType := by
  have hinput : (new (clearScriptSigs tx) scriptCode nIn nHashType).inputAt =
      (new tx scriptCode nIn nHashType).inputAt := by
    funext nInput
    simp only [inputAt, new, clearScriptSigs, List.getElem?_map]
    cases tx.vin[nInput]? <;> rfl
  have hinputs : (new (clearScriptSigs tx) scriptCode nIn nHashType).serializeInput =
      (new tx scriptCode nIn nHashType).serializeInput := by
    funext nInput
    rw [serializeInput, hinput]
    rfl
  have hcount : (new (clearScriptSigs tx) scriptCode nIn nHashType).nInputs =
      (new tx scriptCode nIn nHashType).nInputs := by
    simp only [nInputs, new, clearScriptSigs, List.length_map]
    rfl
  have hserialize : (new (clearScriptSigs tx) scriptCode nIn nHashType).serialize =
      (new tx scriptCode nIn nHashType).serialize := by
    rw [CTransactionSignatureSerializer.serialize, hinputs, hcount]
    rfl
  have hlength : (clearScriptSigs tx).vin.length = tx.vin.length := List.length_map ..
  rw [hashed, hserialize, hlength]
  rfl

end

theorem checker_clearScriptSigs (P : Primitives) (E : Curve) (tx : CMutableTransaction) (nIn : Nat) :
    transactionSignatureChecker P E (clearScriptSigs tx) nIn = transactionSignatureChecker P E tx nIn := by
  have hsig : checkSig P E (clearScriptSigs tx) nIn = checkSig P E tx nIn := by
    funext vchSigIn vchPubKey scriptCode
    simp only [checkSig, signatureHash, hashed_clearScriptSigs]
  have hlock : checkLockTime (clearScriptSigs tx) nIn = checkLockTime tx nIn := by
    funext nLockTime
    simp only [checkLockTime, clearScriptSigs, List.getElem?_map]
    cases tx.vin[nIn]? <;> rfl
  have hsequence : checkSequence (clearScriptSigs tx) nIn = checkSequence tx nIn := by
    funext nSequence
    simp only [checkSequence, clearScriptSigs, List.getElem?_map]
    cases tx.vin[nIn]? <;> rfl
  rw [transactionSignatureChecker, hsig, hlock, hsequence]
  rfl

theorem checker_congr (P : Primitives) (E : Curve) (nIn : Nat)
    (h : clearScriptSigs tx = clearScriptSigs tx') :
    transactionSignatureChecker P E tx nIn = transactionSignatureChecker P E tx' nIn := by
  rw [← checker_clearScriptSigs, h, checker_clearScriptSigs]

structure CKeyStore where
  haveKey : CKeyID → Bool
  getKey : CKeyID → Option CKey
  getPubKey : CKeyID → Option CPubKey
  getCScript : Bytes → Option CScript
  haveWatchOnly : CScript → Bool

structure BaseSignatureCreator where
  keystore : CKeyStore
  createSig : CKeyID → CScript → Option Bytes
  checker : BaseSignatureChecker

section

variable (P : Primitives) (E : Curve) (keystore : CKeyStore)

def transactionSignatureCreator (txTo : CMutableTransaction) (nIn : Nat) (nHashType : Int32) :
    BaseSignatureCreator where
  keystore := keystore
  createSig address scriptCode := (keystore.getKey address).map fun key =>
    E.sign key (signatureHash P scriptCode txTo nIn nHashType) ++ [nHashType.toUInt32.toUInt8]
  checker := transactionSignatureChecker P E txTo nIn

def dummySig : Bytes :=
  [0x30, 69, 0x02, 33, 0x01] ++ List.replicate 32 0 ++ [0x02, 32, 0x01] ++ List.replicate 31 0 ++
    [UInt8.ofNat SIGHASH_ALL]

def dummySignatureCreator : BaseSignatureCreator where
  keystore := keystore
  createSig _ _ := some dummySig
  checker := { BaseSignatureChecker.refusing with checkSig := fun _ _ _ => true }

end

section

def flagsOf (l : List VerifyFlag) : BitVec 32 := l.foldl (fun flags flag => flags ||| 1 <<< flag.bit) 0

def STANDARD_SCRIPT_VERIFY_FLAGS : BitVec 32 :=
  flagsOf [.P2SH, .DERSIG, .STRICTENC, .MINIMALDATA, .NULLDUMMY, .DISCOURAGE_UPGRADABLE_NOPS,
    .CLEANSTACK, .CHECKLOCKTIMEVERIFY, .CHECKSEQUENCEVERIFY, .LOW_S]

variable (P : Primitives) (creator : BaseSignatureCreator)

def sign1 (address : CKeyID) (scriptCode : CScript) : Option CScript :=
  (creator.createSig address scriptCode).map pushData

def signRound (scriptCode : CScript) (nRequired : Nat) (state : Nat × CScript) (pubkey : Bytes) :
    Nat × CScript :=
  if state.1 < nRequired then
    match sign1 creator (getID P (toPubKey pubkey)) scriptCode with
    | none => state
    | some pushed => (state.1 + 1, state.2 ++ pushed)
  else state

def signN (multisigdata : List Bytes) (scriptCode scriptSigRet : CScript) : Bool × CScript :=
  let (nSigned, scriptSigRet) := (pubkeys multisigdata).foldl
    (signRound P creator scriptCode (required multisigdata)) (0, scriptSigRet)
  (nSigned == required multisigdata, scriptSigRet)

def signStep (scriptPubKey : CScript) : Bool × CScript × txnouttype :=
  match solver scriptPubKey with
  | (false, whichType, _) => (false, [], whichType)
  | (true, whichType, vSolutions) =>
    let solution := vSolutions.headD []
    match whichType with
    | .nonstandard | .nullData => (false, [], whichType)
    | .pubkey =>
      match sign1 creator (getID P (toPubKey solution)) scriptPubKey with
      | none => (false, [], whichType)
      | some pushed => (true, pushed, whichType)
    | .pubkeyhash =>
      match sign1 creator solution scriptPubKey with
      | none => (false, [], whichType)
      | some pushed =>
        (true, pushed ++ pushData ((creator.keystore.getPubKey solution).getD []), whichType)
    | .scripthash =>
      match creator.keystore.getCScript solution with
      | none => (false, [], whichType)
      | some redeemScript => (true, redeemScript, whichType)
    | .multisig =>
      let (ret, scriptSig) := signN P creator vSolutions scriptPubKey [0]
      (ret, scriptSig, whichType)

def verify (scriptSig fromPubKey : CScript) : Bool :=
  verifyScript P STANDARD_SCRIPT_VERIFY_FLAGS creator.checker scriptSig fromPubKey

def produceSignature (fromPubKey : CScript) : Bool × CScript :=
  match signStep P creator fromPubKey with
  | (false, scriptSig, _) => (false, scriptSig)
  | (true, subscript, .scripthash) =>
    let (signed, subSig, subType) := signStep P creator subscript
    let scriptSig := subSig ++ pushData subscript
    if signed && subType != .scripthash then (verify P creator scriptSig fromPubKey, scriptSig)
    else (false, scriptSig)
  | (true, scriptSig, _) => (verify P creator scriptSig fromPubKey, scriptSig)

end

section

variable (P : Primitives) (E : Curve)

def stackOf (script : CScript) : List Bytes :=
  match evalScript P (flagsOf [.STRICTENC]) .refusing script [] with
  | .ok _ stack => stack
  | .error _ stack => stack

structure CBasicKeyStore where
  mapKeys : AList fun _ : CKeyID => CKey
  mapWatchKeys : AList fun _ : CKeyID => CPubKey
  mapScripts : AList fun _ : Bytes => CScript
  setWatchOnly : List CScript

def CBasicKeyStore.new : CBasicKeyStore := ⟨∅, ∅, ∅, []⟩

def CBasicKeyStore.addKey (s : CBasicKeyStore) (key : CKey) : CBasicKeyStore :=
  { s with mapKeys := s.mapKeys.insert (getID P (E.getPubKey key)) key }

def basicKeyStore (s : CBasicKeyStore) : CKeyStore where
  haveKey address := (s.mapKeys.lookup address).isSome
  getKey := s.mapKeys.lookup
  getPubKey address := match s.mapKeys.lookup address with
    | some key => some (E.getPubKey key)
    | none => s.mapWatchKeys.lookup address
  getCScript := s.mapScripts.lookup
  haveWatchOnly script := s.setWatchOnly.contains script

def signSignature (keystore : CBasicKeyStore) (fromPubKey : CScript) (txTo : CMutableTransaction)
    (nIn : Nat) (nHashType : Int32) : CMutableTransaction :=
  setScriptSig txTo nIn
    (produceSignature P (transactionSignatureCreator P E (basicKeyStore E keystore) txTo nIn nHashType)
      fromPubKey).2

end

section

variable (checker : BaseSignatureChecker)

def allSigs (sigs1 sigs2 : List Bytes) : List Bytes :=
  ((sigs1 ++ sigs2).filter (· ≠ [])).dedup.mergeSort fun a b => decide (a ≤ b)

def assignSig (scriptPubKey : CScript) (keys : List Bytes) (sigs : AList fun _ : Bytes => Bytes)
    (sig : Bytes) : AList fun _ : Bytes => Bytes :=
  match keys.find? fun pubkey =>
    decide (pubkey ∉ sigs) && checker.checkSig sig pubkey scriptPubKey with
  | none => sigs
  | some pubkey => sigs.insert pubkey sig

def combineMultisig (scriptPubKey : CScript) (vSolutions sigs1 sigs2 : List Bytes) : CScript :=
  let keys := pubkeys vSolutions
  let nSigsRequired := required vSolutions
  let sigs := (allSigs sigs1 sigs2).foldl (assignSig checker scriptPubKey keys) ∅
  let kept := (keys.filterMap sigs.lookup).take nSigsRequired
  0 :: kept.flatMap pushData ++ List.replicate (nSigsRequired - kept.length) 0

def combineStacks (scriptPubKey : CScript) (txType : txnouttype) (vSolutions : List Bytes) :
    List Bytes → List Bytes → CScript
  | sigs1, sigs2 =>
    match txType with
    | .nonstandard | .nullData =>
      if sigs1.length ≥ sigs2.length then pushAll sigs1 else pushAll sigs2
    | .pubkey | .pubkeyhash =>
      if sigs1.getLastD [] = [] then pushAll sigs2 else pushAll sigs1
    | .scripthash =>
      match sigs1 with
      | [] => pushAll sigs2
      | spk :: rest1 =>
        if spk = [] then pushAll sigs2
        else if sigs2.headD [] = [] then pushAll (spk :: rest1)
        else
          let (_, txType2, vSolutions2) := solver spk
          combineStacks spk txType2 vSolutions2 rest1 sigs2.tail ++ pushData spk
    | .multisig => combineMultisig checker scriptPubKey vSolutions sigs1 sigs2

end

def combineSignatures (P : Primitives) (checker : BaseSignatureChecker)
    (scriptPubKey scriptSig1 scriptSig2 : CScript) : CScript :=
  let (_, txType, vSolutions) := solver scriptPubKey
  combineStacks checker scriptPubKey txType vSolutions (stackOf P scriptSig1) (stackOf P scriptSig2)

end Utsuite.Signing
