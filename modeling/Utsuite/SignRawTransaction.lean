import Utsuite.RawTransaction
import Utsuite.Signing

namespace Utsuite.SignRawTransaction

open ByteWords Transaction HexText PropertyTree RawTransaction Script Interpreter Standard Signing ScriptSign List
open DumpText (secretSetString)
open WalletFile (ascii)

variable {mergedTx tx : CMutableTransaction} {txVariants : List CMutableTransaction}

section

variable (P : Primitives) (E : Curve)

def addKeys (L : Library) : List Bytes → CBasicKeyStore → Except Exit CBasicKeyStore
  | [], keystore => .ok keystore
  | privkey :: privkeys, keystore =>
    match secretSetString L.check L.program privkey with
    | none => .error (.returned "invald private key")
    | some none => .error (.returned "invalid private key ")
    | some (some key) => addKeys L privkeys (keystore.addKey P E key)

/-- The script to sign for, from the texts that `gettx` has collected. The source takes the second
of the texts under a name with `txid` in it, without asking whether there is one. -/
def prevScript (L : Library) : Texts → Except Exit CScript
  | ⟨_ :: txids, txidx :: _⟩ =>
    match L.lexicalCastInt txidx with
    | none => .error .thrown
    | some nOut =>
      if nOut < 0 then .error (.returned "vout must be positive")
      else match txids with
        | [] => .error .undefined
        | txid :: _ => .ok (parseHex txid)
  | _ => .error .undefined

def verifies (tx : CMutableTransaction) (i : Nat) (scriptSig scriptPubKey : CScript) : Bool :=
  verifyScript P STANDARD_SCRIPT_VERIFY_FLAGS (transactionSignatureChecker P E tx i) scriptSig scriptPubKey

def mergeVariant (scriptPubKey : CScript) (i : Nat) (mergedTx txv : CMutableTransaction) :
    Except Exit CMutableTransaction :=
  match mergedTx.vin[i]?, txv.vin[i]? with
  | some txin, some other => .ok (setScriptSig mergedTx i (combineSignatures P
      (transactionSignatureChecker P E mergedTx i) scriptPubKey txin.scriptSig other.scriptSig))
  | _, _ => .error .undefined

def mergeVariants (scriptPubKey : CScript) (i : Nat) :
    List CMutableTransaction → CMutableTransaction → Except Exit CMutableTransaction
  | [], mergedTx => .ok mergedTx
  | txv :: txVariants, mergedTx =>
    (mergeVariant P E scriptPubKey i mergedTx txv).bind (mergeVariants scriptPubKey i txVariants)

def verifyInput (scriptPubKey : CScript) (i : Nat) (mergedTx : CMutableTransaction) :
    Except Exit CMutableTransaction :=
  match mergedTx.vin[i]? with
  | none => .error .undefined
  | some txin =>
    if verifies P E mergedTx i txin.scriptSig scriptPubKey then .ok mergedTx
    else .error (.returned "error")

/-- One round of the loop over the inputs. With `SIGHASH_ALL` there need not be an output of the
same index. -/
def signInput (keystore : CBasicKeyStore) (scriptPubKey : CScript)
    (txVariants : List CMutableTransaction) (i : Nat) (mergedTx : CMutableTransaction) :
    Except Exit CMutableTransaction :=
  match mergedTx.vin[i]? with
  | none => .error .undefined
  | some _ =>
    let mergedTx := setScriptSig mergedTx i []
    let mergedTx := signSignature P E keystore scriptPubKey mergedTx i 1
    (mergeVariants P E scriptPubKey i txVariants mergedTx).bind (verifyInput P E scriptPubKey i)

/-- The command, which makes that round for input 0 only. The decoding loop gets as many rounds as
there are bytes; only a loop that never ends makes more. -/
def signrawtransaction (L : Library) (strHex strtxdata paramkey : Bytes) :
    Except Exit CMutableTransaction :=
  let txData := parseHex strHex
  match decodeTransactions txData.length txData with
  | none | some [] => .error (.returned "error")
  | some (tx :: txVariants) =>
    if paramkey = [] then .error (.returned "param is less error")
    else match getjsonkey L paramkey [] with
      | none => .error .thrown
      | some privkey =>
        (addKeys P E L privkey .new).bind fun keystore =>
          match gettx L strtxdata with
          | none => .error .thrown
          | some texts => (prevScript L texts).bind fun scriptPubKey =>
            signInput P E keystore scriptPubKey (tx :: txVariants) 0 tx

end

def scriptPubKeyName : Bytes :=
  ascii ['s', 'c', 'r', 'i', 'p', 't', 'P', 'u', 'b', 'K', 'e', 'y']

/-- An object of the list of previous outputs. It has at least the three documented members, in any
order. -/
structure PrevOut where
  members : List (Bytes × Bytes)
  named : Named members
  txid : Bytes
  vout : Bytes
  scriptPubKey : Bytes
  txid_mem : (txidName, txid) ∈ members
  vout_mem : (voutName, vout) ∈ members
  scriptPubKey_mem : (scriptPubKeyName, scriptPubKey) ∈ members

def PrevOut.isFor (L : Library) (prevout : COutPoint) (prev : PrevOut) : Bool :=
  uint256S prev.txid == prevout.hash &&
    (L.lexicalCastInt prev.vout).map Int32.toInt == some (prevout.n.toNat : Int)

def suppliedScript (L : Library) (prevs : List PrevOut) (prevout : COutPoint) : Option CScript :=
  (prevs.find? (PrevOut.isFor L prevout)).map fun prev => parseHex prev.scriptPubKey

/-- What a returned transaction should be: the first one decoded but for its scriptSigs, and each
input satisfying the script that was supplied for its outpoint. -/
structure FullyValid (P : Primitives) (E : Curve) (L : Library) (prevs : List PrevOut)
    (tx mergedTx : CMutableTransaction) : Prop where
  same : clearScriptSigs mergedTx = clearScriptSigs tx
  verified : ∀ i txin, mergedTx.vin[i]? = some txin → ∃ scriptPubKey,
    suppliedScript L prevs txin.prevout = some scriptPubKey ∧
      verifies P E mergedTx i txin.scriptSig scriptPubKey = true

def firstScriptSig (tx : CMutableTransaction) : CScript := (tx.vin[0]?.map CTxIn.scriptSig).getD []

def mergeRound (P : Primitives) (checker : BaseSignatureChecker) (scriptPubKey scriptSig : CScript)
    (txv : CMutableTransaction) : CScript :=
  combineSignatures P checker scriptPubKey scriptSig (firstScriptSig txv)

def unsignedScriptSig (scriptPubKey : CScript) : CScript :=
  if (solver scriptPubKey).1 ∧ (solver scriptPubKey).2.1 = .multisig then [0] else []

/-- The scriptSig that input 0 has when it is verified. No keys are read, so the scriptSigs of all
transactions are merged into what signing leaves without any. -/
def mergedScriptSig (P : Primitives) (E : Curve) (scriptPubKey : CScript) (tx : CMutableTransaction)
    (txVariants : List CMutableTransaction) : CScript :=
  (tx :: txVariants).foldl (mergeRound P (transactionSignatureChecker P E tx 0) scriptPubKey)
    (unsignedScriptSig scriptPubKey)

section

variable {P : Primitives} {E : Curve} {scriptPubKey : CScript}

theorem verifies_congr (h : clearScriptSigs tx = clearScriptSigs mergedTx) (i : Nat) :
    verifies P E tx i = verifies P E mergedTx i := by
  funext scriptSig scriptPubKey
  rw [verifies, checker_congr P E i h, verifies]

theorem produceSignature_new (scriptPubKey : CScript) (txTo : CMutableTransaction) (nIn : Nat)
    (nHashType : Int32) :
    (produceSignature P (transactionSignatureCreator P E (basicKeyStore E .new) txTo nIn nHashType)
      scriptPubKey).2 = unsignedScriptSig scriptPubKey := by
  have hround (keys : List Bytes) (m : Nat) (state : Nat × CScript) : keys.foldl (signRound P
      (transactionSignatureCreator P E (basicKeyStore E .new) txTo nIn nHashType) scriptPubKey m) state =
        state := by
    induction keys with
    | nil => rfl
    | cons key keys ih =>
      rw [foldl_cons, signRound]
      split <;> exact ih
  rw [produceSignature, signStep, unsignedScriptSig]
  rcases solver scriptPubKey with ⟨_ | _, txType, vSolutions⟩
  · rfl
  · cases txType with
    | multisig =>
      simp only [signN, hround]
      cases (0 == required vSolutions) <;> rfl
    | _ => rfl

theorem setScriptSig_setScriptSig (tx : CMutableTransaction) (i : Nat) (first second : CScript) :
    setScriptSig (setScriptSig tx i first) i second = setScriptSig tx i second := by
  simp only [setScriptSig, modify_modify_eq]
  rfl

theorem mergeVariants_eq (hinputs : ∀ txv ∈ txVariants, txv.vin ≠ [])
    (hsome : tx.vin ≠ []) (scriptSig : CScript) :
    mergeVariants P E scriptPubKey 0 txVariants (setScriptSig tx 0 scriptSig) =
      .ok (setScriptSig tx 0 (txVariants.foldl
        (mergeRound P (transactionSignatureChecker P E tx 0) scriptPubKey) scriptSig)) := by
  induction txVariants generalizing scriptSig with
  | nil => rfl
  | cons txv txVariants ih =>
    obtain ⟨hinput, hinputs⟩ := forall_mem_cons.mp hinputs
    obtain ⟨txin, rest, htx⟩ := exists_cons_of_ne_nil hsome
    obtain ⟨other, others, hother⟩ := exists_cons_of_ne_nil hinput
    have hset : (setScriptSig tx 0 scriptSig).vin[0]? = some { txin with scriptSig } := by
      rw [getElem?_setScriptSig, htx]
      rfl
    have htxv : txv.vin[0]? = some other := by
      rw [hother]
      rfl
    have hmerge : mergeVariant P E scriptPubKey 0 (setScriptSig tx 0 scriptSig) txv =
        .ok (setScriptSig tx 0
          (mergeRound P (transactionSignatureChecker P E tx 0) scriptPubKey scriptSig txv)) := by
      rw [mergeVariant, hset, htxv, mergeRound, firstScriptSig, htxv]
      simp only [setScriptSig_setScriptSig, checker_congr P E 0 (clearScriptSigs_setScriptSig tx 0 scriptSig)]
      rfl
    rw [mergeVariants, hmerge, foldl_cons]
    exact ih hinputs _

theorem mergeVariants_undefined (h : ∃ txv ∈ txVariants, txv.vin = []) (mergedTx : CMutableTransaction) :
    mergeVariants P E scriptPubKey 0 txVariants mergedTx = .error .undefined := by
  induction txVariants generalizing mergedTx with
  | nil =>
    obtain ⟨_, hmem, _⟩ := h
    cases hmem
  | cons txv txVariants ih =>
    rw [mergeVariants, mergeVariant]
    split
    · next hin hother =>
        obtain ⟨other, hmem, hempty⟩ := h
        obtain rfl | hmem := mem_cons.mp hmem
        · rw [hempty] at hother
          cases hother
        · exact ih ⟨other, hmem, hempty⟩ _
    · rfl

/-- The round for input 0 without keys: undefined behaviour if some transaction has no input, and
otherwise the verification of the merged scriptSig. -/
theorem signInput_new (scriptPubKey : CScript) (tx : CMutableTransaction)
    (txVariants : List CMutableTransaction) :
    signInput P E .new scriptPubKey (tx :: txVariants) 0 tx =
      if ∀ txv ∈ tx :: txVariants, txv.vin ≠ [] then
        if verifies P E tx 0 (mergedScriptSig P E scriptPubKey tx txVariants) scriptPubKey then
          .ok (setScriptSig tx 0 (mergedScriptSig P E scriptPubKey tx txVariants))
        else .error (.returned "error")
      else .error .undefined := by
  rw [signInput]
  cases hvin : tx.vin with
  | nil =>
    have hno : ¬∀ txv ∈ tx :: txVariants, txv.vin ≠ [] := fun h => h tx mem_cons_self hvin
    rw [if_neg hno]
    rfl
  | cons txin rest =>
    have hsome : tx.vin ≠ [] := hvin ▸ cons_ne_nil txin rest
    dsimp only [getElem?_cons_zero]
    rw [signSignature, produceSignature_new, setScriptSig_setScriptSig]
    by_cases hinputs : ∀ txv ∈ tx :: txVariants, txv.vin ≠ []
    · have hset : (setScriptSig tx 0 (mergedScriptSig P E scriptPubKey tx txVariants)).vin[0]? =
          some { txin with scriptSig := mergedScriptSig P E scriptPubKey tx txVariants } := by
        rw [getElem?_setScriptSig, hvin]
        rfl
      rw [if_pos hinputs, mergeVariants_eq hinputs hsome]
      change verifyInput P E scriptPubKey 0
        (setScriptSig tx 0 (mergedScriptSig P E scriptPubKey tx txVariants)) = _
      rw [verifyInput, hset, verifies_congr (clearScriptSigs_setScriptSig ..)]
    · rw [if_neg hinputs, mergeVariants_undefined (by simpa only [not_forall, not_not, exists_prop] using hinputs)]
      rfl

end

theorem txid_mem_idTexts (prev : PrevOut) : prev.txid ∈ idTexts prev.members := by
  have htxid : hasTxid txidName = true := by decide
  exact mem_map.mpr ⟨_, mem_filter.mpr ⟨prev.txid_mem, htxid⟩, rfl⟩

theorem vout_mem_otherTexts (prev : PrevOut) : prev.vout ∈ otherTexts prev.members := by
  have hvout : (!hasTxid voutName) = true := by decide
  exact mem_map.mpr ⟨_, mem_filter.mpr ⟨prev.vout_mem, hvout⟩, rfl⟩

/-- The texts that `gettx` collects from previous outputs. It reads the first object once for every
object. -/
def textsOf (prevs : List PrevOut) : Texts :=
  ⟨prevs.flatMap fun _ => idTexts ((prevs.map PrevOut.members).headD []),
    prevs.flatMap fun _ => otherTexts ((prevs.map PrevOut.members).headD [])⟩

theorem gettx_prevOuts
    (hread : L.readJson strtxdata = some (.array (prevs.map fun prev => .object prev.members))) :
    gettx L strtxdata = some (textsOf prevs) := by
  have hobjects : L.readJson strtxdata =
      some (.array ((prevs.map PrevOut.members).map .object)) := by
    rw [hread, map_map]
    rfl
  rw [gettx_array hobjects, flatMap_map, flatMap_map, textsOf]
  intro members hmembers
  obtain ⟨prev, -, rfl⟩ := mem_map.mp hmembers
  exact prev.named

/-- The first of the texts that are not under a name with `txid` in it is a number, and not a
negative one. -/
def VoutOk (L : Library) (prevs : List PrevOut) : Prop :=
  ∃ vout nOut, (textsOf prevs).value.head? = some vout ∧ L.lexicalCastInt vout = some nOut ∧ ¬nOut < 0

theorem textsOf_eq (hne : prevs ≠ []) :
    ∃ txid txids vout vouts, textsOf prevs = ⟨txid :: txids, vout :: vouts⟩ := by
  obtain ⟨first, prevs, rfl⟩ := exists_cons_of_ne_nil hne
  obtain ⟨txid, txids, htxids⟩ : ∃ txid txids, (textsOf (first :: prevs)).keyid = txid :: txids :=
    exists_cons_of_ne_nil (ne_nil_of_mem (mem_append_left _ (txid_mem_idTexts first)))
  obtain ⟨vout, vouts, hvouts⟩ : ∃ vout vouts, (textsOf (first :: prevs)).value = vout :: vouts :=
    exists_cons_of_ne_nil (ne_nil_of_mem (mem_append_left _ (vout_mem_otherTexts first)))
  exact ⟨txid, txids, vout, vouts, by rw [← htxids, ← hvouts]⟩

theorem prevScript_ok (L : Library) (hne : prevs ≠ []) (hvout : VoutOk L prevs) :
    prevScript L (textsOf prevs) = match (textsOf prevs).keyid[1]? with
      | none => .error .undefined
      | some txid => .ok (parseHex txid) := by
  obtain ⟨txid, txids, vout, vouts, htexts⟩ := textsOf_eq hne
  obtain ⟨_, nOut, hhead, hcast, hneg⟩ := hvout
  rw [htexts] at hhead ⊢
  cases hhead
  cases txids <;> simp [prevScript, hcast, hneg]

theorem prevScript_stops (L : Library) (hne : prevs ≠ []) (hvout : ¬VoutOk L prevs) :
    ∃ exit, prevScript L (textsOf prevs) = .error exit ∧ exit ≠ .undefined := by
  obtain ⟨txid, txids, vout, vouts, htexts⟩ := textsOf_eq hne
  rw [VoutOk, htexts] at hvout
  rw [htexts]
  cases hcast : L.lexicalCastInt vout with
  | none => exact ⟨.thrown, by simp [prevScript, hcast], by decide⟩
  | some nOut =>
    have hneg : nOut < 0 := by_contra fun h => hvout ⟨vout, nOut, rfl, hcast, h⟩
    exact ⟨.returned "vout must be positive", by simp [prevScript, hcast, hneg], by decide⟩

theorem length_le_flatMap (txs : List CMutableTransaction) :
    txs.length ≤ (txs.flatMap transactionFormat.write).length := by
  induction txs with
  | nil => exact le_rfl
  | cons tx txs ih =>
    have hpos := length_pos_iff.mpr (write_transaction_ne_nil tx)
    rw [flatMap_cons, length_append, length_cons]
    omega

section

variable {L : Library} (hfits : ∀ txv ∈ tx :: txVariants, Fits txv) {strHex : Bytes}
  (hhex : parseHex strHex = (tx :: txVariants).flatMap transactionFormat.write)
  {strtxdata : Bytes} {prevs : List PrevOut}
  (hprevs : L.readJson strtxdata = some (.array (prevs.map fun prev => .object prev.members)))
  {paramkey : Bytes} {keys : List Bytes} (hkeys : L.readJson paramkey = some (.array (keys.map .leaf)))

include hfits hhex hprevs hkeys

/-- The keys are never read, so the command is one round without any. -/
theorem signrawtransaction_eq (P : Primitives) (E : Curve) (hlt : (parseHex strHex).length < 2 ^ 32) :
    signrawtransaction P E L strHex strtxdata paramkey =
      (prevScript L (textsOf prevs)).bind fun scriptPubKey =>
        signInput P E .new scriptPubKey (tx :: txVariants) 0 tx := by
  have hdecode : decodeTransactions (parseHex strHex).length (parseHex strHex) =
      some (tx :: txVariants) := by
    rw [hhex] at hlt ⊢
    exact decodeTransactions_flatMap hfits hlt (length_le_flatMap _)
  have hparam : paramkey ≠ [] := by
    rintro rfl
    rw [L.readJson_nil] at hkeys
    cases hkeys
  simp only [signrawtransaction, hdecode, if_neg hparam, getjsonkey_eq hkeys, addKeys,
    gettx_prevOuts hprevs]
  rfl

end

def InputsSatisfy (P : Primitives) (E : Curve) (L : Library) (prevs : List PrevOut)
    (tx : CMutableTransaction) (merged : CScript) : Prop :=
  ∀ i txin, tx.vin[i]? = some txin → ∃ scriptPubKey,
    suppliedScript L prevs txin.prevout = some scriptPubKey ∧
      verifies P E tx i (if i = 0 then merged else txin.scriptSig) scriptPubKey = true

theorem fullyValid_iff (P : Primitives) (E : Curve) (L : Library) (prevs : List PrevOut)
    (tx : CMutableTransaction) (merged : CScript) :
    FullyValid P E L prevs tx (setScriptSig tx 0 merged) ↔ InputsSatisfy P E L prevs tx merged := by
  have hsame := clearScriptSigs_setScriptSig tx 0 merged
  have hget (i : Nat) : (setScriptSig tx 0 merged).vin[i]? =
      tx.vin[i]?.map fun txin => { txin with scriptSig := if i = 0 then merged else txin.scriptSig } := by
    rw [setScriptSig, getElem?_modify]
    cases i with
    | zero => cases tx.vin[0]? <;> rfl
    | succ i => cases tx.vin[i + 1]? <;> rfl
  constructor
  · intro h i txin htxin
    have hverified := h.verified i _ (by rw [hget, htxin]; rfl)
    rwa [verifies_congr hsame] at hverified
  · intro h
    refine ⟨hsame, fun i txin htxin => ?_⟩
    rw [hget] at htxin
    obtain ⟨txin, htx, rfl⟩ := Option.map_eq_some_iff.mp htxin
    rw [verifies_congr hsame]
    exact h i txin htx

/-- What has to hold for the command to be defined and right. The list of previous outputs is not
empty. If the number that is read from it is not negative, there is a second text under a name with
`txid` in it and every transaction has an input; and if the merged scriptSig satisfies the bytes of
that text, then the inputs satisfy the scripts that were supplied. -/
def Reliable (P : Primitives) (E : Curve) (L : Library) (prevs : List PrevOut)
    (tx : CMutableTransaction) (txVariants : List CMutableTransaction) : Prop :=
  prevs ≠ [] ∧ (VoutOk L prevs → ∃ txid, (textsOf prevs).keyid[1]? = some txid ∧
    (∀ txv ∈ tx :: txVariants, txv.vin ≠ []) ∧
    (verifies P E tx 0 (mergedScriptSig P E (parseHex txid) tx txVariants) (parseHex txid) = true →
      InputsSatisfy P E L prevs tx (mergedScriptSig P E (parseHex txid) tx txVariants)))

def PrevOut.documented (txid vout scriptPubKey : Bytes) : PrevOut where
  members := [(txidName, txid), (voutName, vout), (scriptPubKeyName, scriptPubKey)]
  named :=
    { nodup := by
        have hnodup : [txidName, voutName, scriptPubKeyName].Nodup := by decide
        exact hnodup
      simple := by
        have hsimple : ∀ name ∈ [txidName, voutName, scriptPubKeyName], Simple dot name := by
          unfold Simple
          decide
        simpa using hsimple }
  txid := txid
  vout := vout
  scriptPubKey := scriptPubKey
  txid_mem := by simp
  vout_mem := by simp
  scriptPubKey_mem := by simp

def pushTxid : Bytes := 0x31 :: 0x66 :: (replicate 31 [0x30, 0x31]).flatten

def spendingTx : CMutableTransaction := ⟨1, [rawInput (uint256S pushTxid) 0], [], 0⟩

def pushPrevs (scriptPubKey : Bytes) : List PrevOut :=
  [.documented pushTxid [0x30] scriptPubKey, .documented [0x32] [0x30] []]

def pushLibrary (scriptPubKey : Bytes) : Library :=
  twoTexts (.array ((pushPrevs scriptPubKey).map fun prev => .object prev.members)) (.array [])

theorem spendingTx_fits : ∀ txv ∈ [spendingTx], Fits txv := by
  intro txv htxv
  obtain rfl := mem_singleton.mp htxv
  constructor <;> simp [spendingTx, rawInput, MAX_SIZE]

theorem spendingTx_hex :
    parseHex (encodeHexTx spendingTx) = [spendingTx].flatMap transactionFormat.write := by
  rw [parseHex_encodeHexTx, flatMap_singleton]

section

variable (P : Primitives) (E : Curve)

theorem pushTxid_verifies (tx : CMutableTransaction) (i : Nat) :
    verifies P E tx i [] (parseHex pushTxid) = true := rfl

theorem mergedScriptSig_pushTxid : mergedScriptSig P E (parseHex pushTxid) spendingTx [] = [] := rfl

theorem spendingTx_signed (scriptPubKey : Bytes) :
    signrawtransaction P E (pushLibrary scriptPubKey) (encodeHexTx spendingTx) [1] [2] =
      .ok spendingTx := by
  have hread : (pushLibrary scriptPubKey).readJson [2] = some (.array (([] : List Bytes).map .leaf)) :=
    rfl
  have hlt : (parseHex (encodeHexTx spendingTx)).length < 2 ^ 32 := by
    rw [parseHex_encodeHexTx]
    decide
  have hscript : prevScript (pushLibrary scriptPubKey) (textsOf (pushPrevs scriptPubKey)) =
      .ok (parseHex pushTxid) := rfl
  rw [signrawtransaction_eq spendingTx_fits spendingTx_hex rfl hread P E hlt, hscript]
  change signInput P E .new (parseHex pushTxid) [spendingTx] 0 spendingTx = _
  rw [signInput_new, mergedScriptSig_pushTxid, pushTxid_verifies]
  rfl

end

end Utsuite.SignRawTransaction
