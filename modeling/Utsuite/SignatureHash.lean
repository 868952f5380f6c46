import Utsuite.Interpreter

namespace Utsuite.SignatureHash

open ByteWords WireFormat Transaction Script Interpreter List

def CTxOut.null : CTxOut := ⟨-1, []⟩

structure CTransactionSignatureSerializer where
  txTo : CMutableTransaction
  scriptCode : CScript
  nIn : Nat
  fAnyoneCanPay : Bool
  fHashSingle : Bool
  fHashNone : Bool

def isAnyoneCanPay (nHashType : Int32) : Bool := nHashType.toUInt32 &&& .ofNat SIGHASH_ANYONECANPAY != 0
def isHashSingle (nHashType : Int32) : Bool := nHashType.toUInt32 &&& 0x1f == .ofNat SIGHASH_SINGLE
def isHashNone (nHashType : Int32) : Bool := nHashType.toUInt32 &&& 0x1f == .ofNat SIGHASH_NONE

def CTransactionSignatureSerializer.new (txTo : CMutableTransaction) (scriptCode : CScript)
    (nIn : Nat) (nHashType : Int32) : CTransactionSignatureSerializer :=
  ⟨txTo, scriptCode, nIn, isAnyoneCanPay nHashType, isHashSingle nHashType, isHashNone nHashType⟩

def nCodeSeparators : Code → Nat
  | .finished | .bad _ => 0
  | .op o rest =>
    if o.opcode = OP_CODESEPARATOR then nCodeSeparators rest + 1 else nCodeSeparators rest

/-- The bytes of a script that are written between its code separators, with the last write behind
the loop. -/
def writeSegments : CScript → Code → Bytes
  | itBegin, .finished => itBegin
  | itBegin, .bad it => itBegin.take (itBegin.length - it.length)
  | itBegin, .op o rest =>
    if o.opcode = OP_CODESEPARATOR then
      itBegin.take (itBegin.length - o.pc.length - 1) ++ writeSegments o.pc rest
    else writeSegments itBegin rest

def serializeScriptCode (scriptCode : CScript) : Bytes :=
  writeCompactSize (scriptCode.length - nCodeSeparators (decode scriptCode)) ++
    writeSegments scriptCode (decode scriptCode)

namespace CTransactionSignatureSerializer

variable (txTmp : CTransactionSignatureSerializer)

def inputAt (nInput : Nat) : Bytes :=
  match txTmp.txTo.vin[nInput]? with
  | none => []
  | some txin =>
    outPointFormat.write txin.prevout ++
      (if nInput ≠ txTmp.nIn then scriptFormat.write []
        else serializeScriptCode txTmp.scriptCode) ++
      (if nInput ≠ txTmp.nIn ∧ (txTmp.fHashSingle ∨ txTmp.fHashNone) then int32Format.write 0
        else uint32Format.write txin.nSequence)

def serializeInput (nInput : Nat) : Bytes :=
  txTmp.inputAt (if txTmp.fAnyoneCanPay then txTmp.nIn else nInput)

def serializeOutput (nOutput : Nat) : Bytes :=
  if txTmp.fHashSingle ∧ nOutput ≠ txTmp.nIn then txOutFormat.write CTxOut.null
  else
    match txTmp.txTo.vout[nOutput]? with
    | none => []
    | some txout => txOutFormat.write txout

-- the counts are of type `unsigned int`
def nInputs : Nat := (if txTmp.fAnyoneCanPay then 1 else txTmp.txTo.vin.length) % 2 ^ 32

def nOutputs : Nat :=
  (if txTmp.fHashNone then 0
    else if txTmp.fHashSingle then txTmp.nIn + 1 else txTmp.txTo.vout.length) % 2 ^ 32

def serialize : Bytes :=
  int32Format.write txTmp.txTo.nVersion ++
    (writeCompactSize txTmp.nInputs ++ (range txTmp.nInputs).flatMap txTmp.serializeInput) ++
    (writeCompactSize txTmp.nOutputs ++ (range txTmp.nOutputs).flatMap txTmp.serializeOutput) ++
    uint32Format.write txTmp.txTo.nLockTime

end CTransactionSignatureSerializer

def hashed (scriptCode : CScript) (txTo : CMutableTransaction) (nIn : Nat) (nHashType : Int32) :
    Option Bytes :=
  if nIn ≥ txTo.vin.length then none
  else if isHashSingle nHashType ∧ nIn ≥ txTo.vout.length then none
  else some ((CTransactionSignatureSerializer.new txTo scriptCode nIn nHashType).serialize ++
    int32Format.write nHashType)

def one : uint256 := ⟨1 :: replicate 31 0, rfl⟩

def signatureHash (P : Primitives) (scriptCode : CScript) (txTo : CMutableTransaction) (nIn : Nat)
    (nHashType : Int32) : uint256 :=
  match hashed scriptCode txTo nIn nHashType with
  | none => one
  | some bytes => P.hash256 bytes

def chunks : CScript → Code → List Bytes
  | _, .finished | _, .bad _ => []
  | pc, .op o rest => pc.take (pc.length - o.pc.length) :: chunks o.pc rest

def withoutCodeSeparators (script : CScript) : CScript :=
  ((chunks script (decode script)).filter (· ≠ [OP_CODESEPARATOR])).flatten

/-- The script stands in for the `scriptSig` of the input signed, and all others are blank. -/
def setScripts (script : CScript) (nIn : Nat) (tx : CMutableTransaction) : CMutableTransaction :=
  { tx with
    vin := tx.vin.mapIdx fun i txin => { txin with scriptSig := if i = nIn then script else [] } }

def releaseSequences (nIn : Nat) (tx : CMutableTransaction) : CMutableTransaction :=
  { tx with vin := tx.vin.mapIdx fun i txin => if i = nIn then txin else { txin with nSequence := 0 } }

def dropOutputs (tx : CMutableTransaction) : CMutableTransaction := { tx with vout := [] }

def singleOutput (nIn : Nat) (tx : CMutableTransaction) : CMutableTransaction :=
  { tx with
    vout := (tx.vout.take (nIn + 1)).mapIdx fun i txout => if i = nIn then txout else CTxOut.null }

def singleInput (nIn : Nat) (tx : CMutableTransaction) : CMutableTransaction :=
  { tx with vin := (tx.vin.drop nIn).take 1 }

def editOutputs (nHashType : Int32) (nIn : Nat) (tx : CMutableTransaction) : CMutableTransaction :=
  if isHashNone nHashType then releaseSequences nIn (dropOutputs tx)
  else if isHashSingle nHashType then releaseSequences nIn (singleOutput nIn tx)
  else tx

def editInputs (nHashType : Int32) (nIn : Nat) (tx : CMutableTransaction) : CMutableTransaction :=
  if isAnyoneCanPay nHashType then singleInput nIn tx else tx

def signedCopy (scriptCode : CScript) (txTo : CMutableTransaction) (nIn : Nat)
    (nHashType : Int32) : CMutableTransaction :=
  editInputs nHashType nIn (editOutputs nHashType nIn
    (setScripts (withoutCodeSeparators scriptCode) nIn txTo))

def Parses : Code → Prop
  | .finished => True
  | .bad _ => False
  | .op _ rest => Parses rest

theorem getOp_chunk (h : getOp pc = .ok o) : pc = pc.take (pc.length - o.pc.length) ++ o.pc := by
  obtain ⟨size, -, hpc, -⟩ := getOp_bytes h
  rw [hpc, ← append_assoc, length_append, Nat.add_sub_cancel, take_left]

theorem chunk_eq_separator (h : getOp pc = .ok o) :
    pc.take (pc.length - o.pc.length) = [OP_CODESEPARATOR] ↔ o.opcode = OP_CODESEPARATOR := by
  obtain ⟨size, -, hpc, hnil⟩ := getOp_bytes h
  rw [hpc, ← append_assoc, length_append, Nat.add_sub_cancel, take_left, cons_append]
  constructor
  · intro heq
    exact (cons.inj heq).1
  · intro heq
    rw [hnil (by rw [heq]; decide), heq]

theorem withoutCodeSeparators_ok (h : getOp pc = .ok o) :
    withoutCodeSeparators pc = (if o.opcode = OP_CODESEPARATOR then []
      else pc.take (pc.length - o.pc.length)) ++ withoutCodeSeparators o.pc := by
  rw [withoutCodeSeparators, decode_ok h, chunks]
  by_cases hsep : o.opcode = OP_CODESEPARATOR
  · have hchunk := (chunk_eq_separator h).mpr hsep
    rw [if_pos hsep, filter_cons_of_neg (by simp [hchunk])]
    rfl
  · have hchunk := mt (chunk_eq_separator h).mp hsep
    rw [if_neg hsep, filter_cons_of_pos (by simpa using hchunk)]
    rfl

theorem writeSegments_eq (it seg : CScript) (h : Parses (decode it)) :
    writeSegments (seg ++ it) (decode it) = seg ++ withoutCodeSeparators it := by
  induction it using script_induction generalizing seg with
  | nil => rfl
  | bad opcode pc pc' hop =>
    rw [decode_error hop] at h
    exact h.elim
  | op pc o hop ih =>
    rw [decode_ok hop] at h ⊢
    rw [withoutCodeSeparators_ok hop, writeSegments]
    split_ifs with hsep
    · have hchunk := getOp_chunk hop
      rw [(chunk_eq_separator hop).mpr hsep] at hchunk
      have htake : (seg ++ pc).take ((seg ++ pc).length - o.pc.length - 1) = seg := by
        have hlength : (seg ++ pc).length - o.pc.length - 1 = seg.length := by
          rw [hchunk]
          simp only [length_append, length_singleton]
          omega
        rw [hlength, take_left]
      rw [htake]
      exact congrArg (seg ++ ·) (ih [] h)
    · have happend : seg ++ pc = (seg ++ pc.take (pc.length - o.pc.length)) ++ o.pc := by
        conv_lhs => rw [getOp_chunk hop]
        rw [append_assoc]
      rw [happend, ih _ h, append_assoc]

theorem length_withoutCodeSeparators (it : CScript) (h : Parses (decode it)) :
    (withoutCodeSeparators it).length + nCodeSeparators (decode it) = it.length := by
  induction it using script_induction with
  | nil => rfl
  | bad opcode pc pc' hop =>
    rw [decode_error hop] at h
    exact h.elim
  | op pc o hop ih =>
    have hlength := congrArg length (getOp_chunk hop)
    rw [decode_ok hop] at h ⊢
    have hrest := ih h
    rw [length_append] at hlength
    rw [withoutCodeSeparators_ok hop, length_append, nCodeSeparators]
    split_ifs with hsep
    · rw [(chunk_eq_separator hop).mpr hsep, length_singleton] at hlength
      rw [length_nil]
      omega
    · omega

theorem serializeScriptCode_eq (h : Parses (decode scriptCode)) :
    serializeScriptCode scriptCode = scriptFormat.write (withoutCodeSeparators scriptCode) := by
  have hlength := length_withoutCodeSeparators scriptCode h
  have hsize : scriptCode.length - nCodeSeparators (decode scriptCode) =
      (withoutCodeSeparators scriptCode).length := by omega
  rw [serializeScriptCode, hsize]
  exact congrArg (_ ++ ·) (writeSegments_eq scriptCode [] h)

section

theorem flatMap_range {α : Type} (l : List α) (G : Nat → Bytes) (write : α → Bytes)
    (edit : Nat → α → α) (h : ∀ i a, l[i]? = some a → G i = write (edit i a)) :
    (range l.length).flatMap G = (l.mapIdx edit).flatMap write := by
  rw [flatMap_def, flatMap_def]
  congr 1
  apply ext_getElem
  · simp
  · intro i hi _
    have hlt : i < l.length := by simpa using hi
    simpa using h i l[i] (getElem?_eq_getElem hlt)

variable {script : CScript} {nIn : Nat} {nHashType : Int32} {tx : CMutableTransaction}

def editedInput (script : CScript) (nIn : Nat) (released : Bool) (i : Nat) (txin : CTxIn) : CTxIn :=
  ⟨txin.prevout, if i = nIn then script else [], if i ≠ nIn ∧ released then 0 else txin.nSequence⟩

theorem vin_releaseSequences (h : tx'.vin = (setScripts script nIn tx).vin) :
    (releaseSequences nIn tx').vin = tx.vin.mapIdx (editedInput script nIn true) := by
  simp only [releaseSequences, h, setScripts, mapIdx_mapIdx]
  congr 1
  funext i txin
  by_cases hi : i = nIn <;> simp [editedInput, hi]

theorem vin_editOutputs :
    (editOutputs nHashType nIn (setScripts script nIn tx)).vin =
      tx.vin.mapIdx (editedInput script nIn (isHashSingle nHashType || isHashNone nHashType)) := by
  rw [editOutputs]
  split_ifs with hnone hsingle
  · rw [hnone, Bool.or_true]
    exact vin_releaseSequences rfl
  · rw [hsingle, Bool.true_or]
    exact vin_releaseSequences rfl
  · rw [Bool.eq_false_of_not_eq_true hnone, Bool.eq_false_of_not_eq_true hsingle]
    have hsame : editedInput script nIn false =
        fun i txin => { txin with scriptSig := if i = nIn then script else [] } := by
      funext i txin
      simp [editedInput]
    rw [Bool.or_self, hsame]
    rfl

theorem inputAt_eq (hparse : Parses (decode scriptCode)) (htxin : tx.vin[i]? = some txin) :
    (CTransactionSignatureSerializer.new tx scriptCode nIn nHashType).inputAt i =
      txInFormat.write (editedInput (withoutCodeSeparators scriptCode) nIn
        (isHashSingle nHashType || isHashNone nHashType) i txin) := by
  have hzero : int32Format.write 0 = uint32Format.write 0 := rfl
  change _ = outPointFormat.write txin.prevout ++ (scriptFormat.write (if i = nIn then _ else []) ++
    uint32Format.write (if i ≠ nIn ∧ (isHashSingle nHashType || isHashNone nHashType) then 0
      else txin.nSequence))
  simp only [CTransactionSignatureSerializer.inputAt, CTransactionSignatureSerializer.new, htxin,
    serializeScriptCode_eq hparse, hzero, append_assoc, Bool.or_eq_true]
  by_cases hin : i = nIn
  · simp [hin]
  · by_cases hrelease : isHashSingle nHashType ∨ isHashNone nHashType <;> simp [hin, hrelease]

theorem vin_singleInput (htx' : tx'.vin = tx.vin.mapIdx f) (hin : nIn < tx.vin.length) :
    (singleInput nIn tx').vin = [f nIn tx.vin[nIn]] := by
  simp only [singleInput, htx']
  rw [drop_eq_getElem_cons (by simpa using hin)]
  simp

theorem inputs_eq (hparse : Parses (decode scriptCode)) (hvin : tx.vin.length < 2 ^ 32)
    (hin : nIn < tx.vin.length) : let txTmp := CTransactionSignatureSerializer.new tx scriptCode nIn nHashType
    writeCompactSize txTmp.nInputs ++ (range txTmp.nInputs).flatMap txTmp.serializeInput =
      (vectorFormat txInFormat 104).write (signedCopy scriptCode tx nIn nHashType).vin := by
  intro txTmp
  change _ = writeCompactSize _ ++ flatMap txInFormat.write _
  have hindex : ∀ nInput, txTmp.serializeInput nInput =
      txTmp.inputAt (if isAnyoneCanPay nHashType then nIn else nInput) := fun _ => rfl
  have hcount : txTmp.nInputs = (if isAnyoneCanPay nHashType then 1 else tx.vin.length) % 2 ^ 32 :=
    rfl
  rw [signedCopy, editInputs]
  by_cases hany : isAnyoneCanPay nHashType
  · rw [if_pos hany, Nat.mod_eq_of_lt (by decide)] at hcount
    rw [if_pos hany, vin_singleInput vin_editOutputs hin, hcount, range_one,
      flatMap_singleton, flatMap_singleton, hindex, if_pos hany,
      inputAt_eq hparse (getElem?_eq_getElem hin)]
    rfl
  · rw [if_neg hany, Nat.mod_eq_of_lt hvin] at hcount
    rw [if_neg hany, hcount, vin_editOutputs, length_mapIdx]
    congr 1
    refine flatMap_range tx.vin _ _ _ fun i txin htxin => ?_
    rw [hindex, if_neg hany]
    exact inputAt_eq hparse htxin

theorem vout_editInputs (tx' : CMutableTransaction) :
    (editInputs nHashType nIn tx').vout = tx'.vout := by
  rw [editInputs]
  split_ifs <;> rfl

theorem outputs_eq (hvout : tx.vout.length < 2 ^ 32)
    (hout : isHashSingle nHashType → nIn < tx.vout.length) : let txTmp := CTransactionSignatureSerializer.new tx scriptCode nIn nHashType
    writeCompactSize txTmp.nOutputs ++ (range txTmp.nOutputs).flatMap txTmp.serializeOutput =
      (vectorFormat txOutFormat 48).write (signedCopy scriptCode tx nIn nHashType).vout := by
  intro txTmp
  change _ = writeCompactSize _ ++ flatMap txOutFormat.write _
  have hcount : txTmp.nOutputs = (if isHashNone nHashType then 0
    else if isHashSingle nHashType then nIn + 1 else tx.vout.length) % 2 ^ 32 := rfl
  rw [signedCopy, vout_editInputs, editOutputs]
  split_ifs at hcount ⊢ with hnone hsingle
  · rw [hcount]
    rfl
  · have hlt := hout hsingle
    have hlength : (tx.vout.take (nIn + 1)).length = nIn + 1 := by
      rw [length_take]
      omega
    rw [hcount, Nat.mod_eq_of_lt (by omega)]
    change _ = writeCompactSize ((tx.vout.take (nIn + 1)).mapIdx _).length ++
      ((tx.vout.take (nIn + 1)).mapIdx _).flatMap _
    rw [length_mapIdx, hlength]
    congr 1
    conv_lhs => rw [← hlength]
    refine flatMap_range (tx.vout.take (nIn + 1)) _ _ _ fun i txout htxout => ?_
    have hget : tx.vout[i]? = some txout := by
      rw [getElem?_take] at htxout
      split_ifs at htxout
      exact htxout
    simp only [txTmp, CTransactionSignatureSerializer.serializeOutput,
      CTransactionSignatureSerializer.new, hsingle, hget]
    by_cases hi : i = nIn <;> simp [hi]
  · rw [hcount, Nat.mod_eq_of_lt hvout]
    have hsame : tx.vout.mapIdx (fun _ txout => txout) = tx.vout := by
      apply ext_getElem <;> simp
    have hloop := flatMap_range tx.vout txTmp.serializeOutput txOutFormat.write (fun _ txout => txout)
      fun i txout htxout => by
        simp [txTmp, CTransactionSignatureSerializer.serializeOutput,
          CTransactionSignatureSerializer.new, hsingle, htxout]
    rw [hsame] at hloop
    exact congrArg (_ ++ ·) hloop

theorem nVersion_signedCopy (scriptCode : CScript) :
    (signedCopy scriptCode tx nIn nHashType).nVersion = tx.nVersion := by
  rw [signedCopy, editInputs, editOutputs]
  split_ifs <;> rfl

theorem nLockTime_signedCopy (scriptCode : CScript) :
    (signedCopy scriptCode tx nIn nHashType).nLockTime = tx.nLockTime := by
  rw [signedCopy, editInputs, editOutputs]
  split_ifs <;> rfl

theorem serialize_eq (hparse : Parses (decode scriptCode)) (hvin : tx.vin.length < 2 ^ 32)
    (hvout : tx.vout.length < 2 ^ 32) (hin : nIn < tx.vin.length)
    (hout : isHashSingle nHashType → nIn < tx.vout.length) :
    (CTransactionSignatureSerializer.new tx scriptCode nIn nHashType).serialize =
      transactionFormat.write (signedCopy scriptCode tx nIn nHashType) := by
  rw [CTransactionSignatureSerializer.serialize, inputs_eq hparse hvin hin, outputs_eq hvout hout]
  change _ = int32Format.write (signedCopy scriptCode tx nIn nHashType).nVersion ++
    ((vectorFormat txInFormat 104).write (signedCopy scriptCode tx nIn nHashType).vin ++
      ((vectorFormat txOutFormat 48).write (signedCopy scriptCode tx nIn nHashType).vout ++
        uint32Format.write (signedCopy scriptCode tx nIn nHashType).nLockTime))
  rw [nVersion_signedCopy, nLockTime_signedCopy, append_assoc, append_assoc]
  rfl

end

/-- Where the hash is not `one`, it is that of the serialised copy of the transaction that the hash
type asks for. -/
theorem hashed_signedCopy (P : Primitives) {scriptCode : CScript} {txTo : CMutableTransaction}
    {nIn : Nat} {nHashType : Int32} {bytes : Bytes} (hparse : Parses (decode scriptCode))
    (hvin : txTo.vin.length < 2 ^ 32) (hvout : txTo.vout.length < 2 ^ 32)
    (h : hashed scriptCode txTo nIn nHashType = some bytes) :
    bytes = transactionFormat.write (signedCopy scriptCode txTo nIn nHashType) ++
        leBytes 4 nHashType.toUInt32.toNat ∧
      signatureHash P scriptCode txTo nIn nHashType = P.hash256 bytes := by
  refine ⟨?_, by rw [signatureHash, h]⟩
  rw [hashed] at h
  split_ifs at h with hin hsingle
  cases h
  rw [serialize_eq hparse hvin hvout (not_le.mp hin)]
  · rfl
  · intro hfHashSingle
    exact not_le.mp fun hge => hsingle ⟨hfHashSingle, hge⟩

def oneInput : CMutableTransaction :=
  ⟨1, [⟨⟨one, 0⟩, [7], 5⟩], [⟨3, [OP_RETURN]⟩], 0⟩

theorem hashed_signedCopy_single :
    ∃ bytes, hashed [OP_CODESEPARATOR, OP_CHECKSIG] oneInput 0 3 = some bytes ∧
      bytes = transactionFormat.write (signedCopy [OP_CODESEPARATOR, OP_CHECKSIG] oneInput 0 3) ++
        leBytes 4 (3 : Int32).toUInt32.toNat := by
  have hparse : Parses (decode [OP_CODESEPARATOR, OP_CHECKSIG]) := trivial
  let P : Primitives := ⟨fun _ => ⟨replicate 20 0, rfl⟩, fun _ => ⟨replicate 20 0, rfl⟩,
    fun _ => one, fun _ => true⟩
  exact ⟨_, rfl, (hashed_signedCopy P hparse (by decide) (by decide) rfl).1⟩

theorem hashed_ne (hvin : vin.length = 2 ^ 32) (h : hashed [] ⟨1, vin, [], 0⟩ 0 1 = some bytes) :
    bytes ≠ transactionFormat.write (signedCopy [] ⟨1, vin, [], 0⟩ 0 1) ++
      leBytes 4 (1 : Int32).toUInt32.toNat := by
  intro heq
  have hcount : (CTransactionSignatureSerializer.new ⟨1, vin, [], 0⟩ [] 0 1).nInputs = 0 := by
    change vin.length % 2 ^ 32 = 0
    rw [hvin]
    exact Nat.mod_self _
  have hcopy : (signedCopy [] ⟨1, vin, [], 0⟩ 0 1).vin.length = 2 ^ 32 := by
    change (vin.mapIdx _).length = 2 ^ 32
    rw [length_mapIdx, hvin]
  rw [hashed] at h
  split_ifs at h
  cases h
  -- the count of the inputs starts at the fifth byte
  have hbyte := congrArg (·[4]?) heq
  rw [CTransactionSignatureSerializer.serialize, hcount] at hbyte
  change some 0 = (int32Format.write 1 ++ (writeCompactSize
    (signedCopy [] ⟨1, vin, [], 0⟩ 0 1).vin.length ++ _ ++ _) ++ _)[4]? at hbyte
  rw [hcopy] at hbyte
  change some 0 = some 255 at hbyte
  cases hbyte

/-- With `2 ^ 32` inputs the loop over them makes no round, so the bytes hashed are not those of the
copy. -/
theorem hashed_too_many_inputs :
    ∃ scriptCode txTo nIn nHashType bytes, Parses (decode scriptCode) ∧
      hashed scriptCode txTo nIn nHashType = some bytes ∧
      bytes ≠ transactionFormat.write (signedCopy scriptCode txTo nIn nHashType) ++
        leBytes 4 nHashType.toUInt32.toNat := by
  have hlength : (replicate (2 ^ 32) (⟨⟨one, 0⟩, [], 0⟩ : CTxIn)).length = 2 ^ 32 :=
    length_replicate
  generalize replicate (2 ^ 32) (⟨⟨one, 0⟩, [], 0⟩ : CTxIn) = vin at hlength
  have hlt : ¬0 ≥ vin.length := by omega
  exact ⟨[], ⟨1, vin, [], 0⟩, 0, 1, _, trivial, if_neg hlt, hashed_ne hlength (if_neg hlt)⟩

def blankScripts : CMutableTransaction → CMutableTransaction := setScripts [] 0

def SignsAll (nHashType : Int32) : Prop :=
  isHashNone nHashType = false ∧ isHashSingle nHashType = false ∧ isAnyoneCanPay nHashType = false

structure Signable (scriptCode : CScript) (tx : CMutableTransaction) (nIn : Nat) : Prop where
  parses : Parses (decode scriptCode)
  nonempty : withoutCodeSeparators scriptCode ≠ []
  script_le : scriptCode.length ≤ MAX_SIZE
  fits : Fits tx
  input : nIn < tx.vin.length

section

variable {scriptCode script script' : CScript} {tx tx' : CMutableTransaction} {nIn nIn' : Nat}

theorem setScripts_setScripts :
    setScripts script nIn (setScripts script' nIn' tx) = setScripts script nIn tx := by
  simp only [setScripts, CMutableTransaction.mk.injEq, true_and, and_true]
  refine ext_getElem? fun i => ?_
  simp [Function.comp_def]

theorem scriptSig_setScripts (h : i < tx.vin.length) :
    ((setScripts script nIn tx).vin[i]?).map CTxIn.scriptSig = some (if i = nIn then script else []) := by
  simp [setScripts, h]

theorem setScripts_eq_iff (hin : nIn < tx.vin.length) (hscript : script ≠ []) :
    setScripts script nIn tx = setScripts script' nIn' tx' ↔
      blankScripts tx = blankScripts tx' ∧ script = script' ∧ nIn = nIn' := by
  constructor
  · intro h
    have hblank := congrArg blankScripts h
    rw [blankScripts, setScripts_setScripts, setScripts_setScripts] at hblank
    have hlen : nIn < tx'.vin.length := by
      have hlen := congrArg (fun t => t.vin.length) h
      simp only [setScripts, length_mapIdx] at hlen
      omega
    have hsig := congrArg (fun t => (t.vin[nIn]?).map CTxIn.scriptSig) h
    rw [scriptSig_setScripts hin, scriptSig_setScripts hlen, if_pos rfl, Option.some_inj] at hsig
    split_ifs at hsig with heq
    · exact ⟨hblank, hsig, heq⟩
    · exact absurd hsig hscript
  · rintro ⟨hblank, rfl, rfl⟩
    exact setScripts_setScripts.symm.trans ((congrArg _ hblank).trans setScripts_setScripts)

theorem fits_setScripts (h : Signable scriptCode tx nIn) :
    Fits (setScripts (withoutCodeSeparators scriptCode) nIn tx) := by
  have hlen := length_withoutCodeSeparators scriptCode h.parses
  have hle := h.script_le
  refine ⟨by simpa [setScripts] using h.fits.vin_le, h.fits.vout_le, ?_, h.fits.scriptPubKey_le⟩
  intro i hi
  obtain ⟨k, hk, rfl⟩ := mem_mapIdx.mp hi
  dsimp only
  split_ifs
  · omega
  · exact Nat.zero_le _

theorem hashed_all (h : Signable scriptCode tx nIn) (hall : SignsAll nHashType) :
    hashed scriptCode tx nIn nHashType =
      some (transactionFormat.write (setScripts (withoutCodeSeparators scriptCode) nIn tx) ++
        int32Format.write nHashType) := by
  obtain ⟨hnone, hsingle, hany⟩ := hall
  have hmax : MAX_SIZE < 2 ^ 32 := by decide
  rw [hashed, if_neg (not_le.mpr h.input), if_neg (by simp [hsingle]),
    serialize_eq h.parses (h.fits.vin_le.trans_lt hmax) (h.fits.vout_le.trans_lt hmax) h.input
      (by simp [hsingle])]
  simp only [signedCopy, editOutputs, editInputs, hnone, hsingle, hany, Bool.false_eq_true, if_false]

end

/-- Signatures of all inputs and outputs are made over equal bytes exactly if transaction, script
and input agree up to the scriptSigs. -/
theorem hashed_all_eq_iff {scriptCode scriptCode' : CScript} {tx tx' : CMutableTransaction}
    {nIn nIn' : Nat} {nHashType nHashType' : Int32} (h : Signable scriptCode tx nIn)
    (h' : Signable scriptCode' tx' nIn') (hall : SignsAll nHashType) (hall' : SignsAll nHashType') :
    hashed scriptCode tx nIn nHashType = hashed scriptCode' tx' nIn' nHashType' ↔
      blankScripts tx = blankScripts tx' ∧
      withoutCodeSeparators scriptCode = withoutCodeSeparators scriptCode' ∧ nIn = nIn' ∧
      nHashType = nHashType' := by
  rw [hashed_all h hall, hashed_all h' hall', Option.some_inj]
  have hcopy : setScripts (withoutCodeSeparators scriptCode) nIn tx =
      setScripts (withoutCodeSeparators scriptCode') nIn' tx' ↔ _ := setScripts_eq_iff h.input h.nonempty
  constructor
  · intro heq
    have hread := transactionFormat_canonical.read_write _ (int32Format.write nHashType) (fits_setScripts h)
    rw [heq, transactionFormat_canonical.read_write _ _ (fits_setScripts h')] at hread
    obtain ⟨htx, htype⟩ := Prod.mk.inj (Option.some.inj hread)
    obtain ⟨hblank, hscript, hin⟩ := hcopy.mp htx.symm
    exact ⟨hblank, hscript, hin, int32Format_canonical.selfDelimiting.injective htype.symm⟩
  · rintro ⟨hblank, hscript, hin, rfl⟩
    rw [hcopy.mpr ⟨hblank, hscript, hin⟩]

theorem hashed_all_eq_resigned :
    hashed [OP_CHECKSIG] oneInput 0 1 =
      hashed [OP_CODESEPARATOR, OP_CHECKSIG] { oneInput with vin := [⟨⟨one, 0⟩, [8, 9], 5⟩] } 0 1 := by
  have h : Signable [OP_CHECKSIG] oneInput 0 :=
    ⟨trivial, by decide, by decide, ⟨by decide, by decide, by decide, by decide⟩, by decide⟩
  have h' : Signable [OP_CODESEPARATOR, OP_CHECKSIG] { oneInput with vin := [⟨⟨one, 0⟩, [8, 9], 5⟩] } 0 :=
    ⟨trivial, by decide, by decide, ⟨by decide, by decide, by decide, by decide⟩, by decide⟩
  have hall : SignsAll 1 := ⟨rfl, rfl, rfl⟩
  exact (hashed_all_eq_iff h h' hall hall).mpr ⟨rfl, rfl, rfl, rfl⟩

end Utsuite.SignatureHash
