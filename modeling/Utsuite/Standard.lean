import Utsuite.Script

namespace Utsuite.Standard

open ByteWords Transaction Script List
open ScriptSign (txnouttype pushData)

def mTemplates : List (txnouttype × List opcodetype) :=
  [(.pubkey, [OP_PUBKEY, OP_CHECKSIG]),
    (.pubkeyhash, [OP_DUP, OP_HASH160, OP_PUBKEYHASH, OP_EQUALVERIFY, OP_CHECKSIG]),
    (.multisig, [OP_SMALLINTEGER, OP_PUBKEYS, OP_SMALLINTEGER, OP_CHECKMULTISIG])]

def isKeySize (vch : Bytes) : Bool := 33 ≤ vch.length && vch.length ≤ 65

/-- The loop over the keys of a template. When `GetOp` fails, what is left of the script matches
nothing. -/
def scanKeys : Operation → Code → List Bytes → Option (Operation × Code × List Bytes)
  | o, rest, vSolutions =>
    if isKeySize o.vch then
      match rest with
      | .op o' rest' => scanKeys o' rest' (vSolutions ++ [o.vch])
      | _ => none
    else some (o, rest, vSolutions)

def matchOp (opcode2 : opcodetype) (o : Operation) (vSolutions : List Bytes) :
    Option (List Bytes) :=
  if opcode2 = OP_PUBKEY then
    if isKeySize o.vch then some (vSolutions ++ [o.vch]) else none
  else if opcode2 = OP_PUBKEYHASH then
    if o.vch.length = 20 then some (vSolutions ++ [o.vch]) else none
  else if opcode2 = OP_SMALLINTEGER then
    (decodeOP_N o.opcode).map fun n => vSolutions ++ [[.ofNat n]]
  else if o.opcode = opcode2 ∧ o.vch = [] then some vSolutions
  else none

/-- A script is compared with a template. `none` says that the comparison breaks off. -/
def matchTemplate : List opcodetype → Code → List Bytes → Option (List Bytes)
  | [], .finished, vSolutions => some vSolutions
  | opcode2 :: template, .op o rest, vSolutions =>
    if opcode2 = OP_PUBKEYS then
      match template with
      | [] => none
      | opcode2 :: template =>
        match scanKeys o rest vSolutions with
        | none => none
        | some (o, rest, vSolutions) =>
          match matchOp opcode2 o vSolutions with
          | none => none
          | some vSolutions => matchTemplate template rest vSolutions
    else
      match matchOp opcode2 o vSolutions with
      | none => none
      | some vSolutions => matchTemplate template rest vSolutions
  | _, _, _ => none

def multisigOk (vSolutions : List Bytes) : Bool :=
  let m := ((vSolutions.headD []).headD 0).toNat
  let n := ((vSolutions.getLastD []).headD 0).toNat
  !(m < 1 || n < 1 || m > n || vSolutions.length - 2 != n)

def scanTemplates (code : Code) :
    List (txnouttype × List opcodetype) → Bool × txnouttype × List Bytes
  | [] => (false, .nonstandard, [])
  | tplate :: templates =>
    match matchTemplate tplate.2 code [] with
    | some vSolutions => (tplate.1 != .multisig || multisigOk vSolutions, tplate.1, vSolutions)
    | none => scanTemplates code templates

def solver (scriptPubKey : CScript) : Bool × txnouttype × List Bytes :=
  if isPayToScriptHash scriptPubKey then
    (true, .scripthash, [(scriptPubKey.drop 2).take 20])
  else if scriptPubKey.length ≥ 1 ∧ scriptPubKey.headD 0 = OP_RETURN ∧
      isPushOnly (scriptPubKey.drop 1) then
    (true, .nullData, [])
  else scanTemplates (decode scriptPubKey) mTemplates

def ofOps (ops : List Operation) : Code := ops.foldr .op .finished

theorem ofOps_cons (o : Operation) (ops : List Operation) :
    ofOps (o :: ops) = .op o (ofOps ops) := rfl

def IsOp (opcode : opcodetype) (o : Operation) : Prop := o.opcode = opcode ∧ o.vch = []

def Literal (opcode : opcodetype) : Prop :=
  opcode ≠ OP_PUBKEY ∧ opcode ≠ OP_PUBKEYHASH ∧ opcode ≠ OP_SMALLINTEGER ∧ opcode ≠ OP_PUBKEYS

instance (opcode : opcodetype) : Decidable (Literal opcode) :=
  inferInstanceAs (Decidable (opcode ≠ OP_PUBKEY ∧ opcode ≠ OP_PUBKEYHASH ∧
    opcode ≠ OP_SMALLINTEGER ∧ opcode ≠ OP_PUBKEYS))

section

variable {opcode2 : opcodetype} {template : List opcodetype} {code : Code}
  {vSolutions found : List Bytes}

theorem matchTemplate_nil (h : matchTemplate [] code vSolutions = some found) :
    code = .finished ∧ found = vSolutions := by
  cases code with
  | finished => exact ⟨rfl, (Option.some.inj h).symm⟩
  | bad pc => cases h
  | op o rest => cases h

theorem matchTemplate_cons (hkeys : opcode2 ≠ OP_PUBKEYS)
    (h : matchTemplate (opcode2 :: template) code vSolutions = some found) :
    ∃ o rest vSolutions', code = .op o rest ∧ matchOp opcode2 o vSolutions = some vSolutions' ∧
      matchTemplate template rest vSolutions' = some found := by
  cases code with
  | finished => cases h
  | bad pc => cases h
  | op o rest =>
    unfold matchTemplate at h
    rw [if_neg hkeys] at h
    split at h
    · cases h
    · next vSolutions' hop => exact ⟨o, rest, vSolutions', rfl, hop, h⟩

theorem matchTemplate_keys
    (h : matchTemplate (OP_PUBKEYS :: opcode2 :: template) code vSolutions = some found) :
    ∃ o rest o' rest' vSolutions' vSolutions'', code = .op o rest ∧
      scanKeys o rest vSolutions = some (o', rest', vSolutions') ∧
      matchOp opcode2 o' vSolutions' = some vSolutions'' ∧
      matchTemplate template rest' vSolutions'' = some found := by
  cases code with
  | finished => cases h
  | bad pc => cases h
  | op o rest =>
    rw [matchTemplate, if_pos rfl] at h
    split at h
    · cases h
    · next o' rest' vSolutions' hscan =>
        split at h
        · cases h
        · next vSolutions'' hop =>
            exact ⟨o, rest, o', rest', vSolutions', vSolutions'', rfl, hscan, hop, h⟩

theorem scanKeys_eq (h : scanKeys o rest vSolutions = some (o', rest', found)) :
    ∃ keys : List Operation, Code.op o rest = keys.foldr Code.op (Code.op o' rest') ∧
      (∀ k ∈ keys, isKeySize k.vch) ∧ found = vSolutions ++ keys.map Operation.vch := by
  induction rest generalizing o vSolutions with
  | finished =>
    unfold scanKeys at h
    split_ifs at h
    cases h
    exact ⟨[], rfl, by simp, by simp⟩
  | bad pc =>
    unfold scanKeys at h
    split_ifs at h
    cases h
    exact ⟨[], rfl, by simp, by simp⟩
  | op o₁ rest₁ ih =>
    unfold scanKeys at h
    split_ifs at h with hsize
    · obtain ⟨keys, hcode, hkeys, hfound⟩ := ih h
      refine ⟨o :: keys, ?_, ?_, ?_⟩
      · rw [hcode]
        rfl
      · exact forall_mem_cons.mpr ⟨hsize, hkeys⟩
      · simp [hfound]
    · cases h
      exact ⟨[], rfl, by simp, by simp⟩

theorem matchOp_pubkey (h : matchOp OP_PUBKEY o vSolutions = some found) :
    isKeySize o.vch = true ∧ found = vSolutions ++ [o.vch] := by
  rw [matchOp, if_pos rfl] at h
  split_ifs at h with hsize
  exact ⟨hsize, (Option.some.inj h).symm⟩

theorem matchOp_pubkeyhash (h : matchOp OP_PUBKEYHASH o vSolutions = some found) :
    o.vch.length = 20 ∧ found = vSolutions ++ [o.vch] := by
  rw [matchOp, if_neg (by decide), if_pos rfl] at h
  split_ifs at h with hsize
  exact ⟨hsize, (Option.some.inj h).symm⟩

theorem matchOp_smallInteger (h : matchOp OP_SMALLINTEGER o vSolutions = some found) :
    ∃ n, decodeOP_N o.opcode = some n ∧ found = vSolutions ++ [[.ofNat n]] := by
  rw [matchOp, if_neg (by decide), if_neg (by decide), if_pos rfl] at h
  obtain ⟨n, hn, hfound⟩ := Option.map_eq_some_iff.mp h
  exact ⟨n, hn, hfound.symm⟩

theorem matchOp_literal (hliteral : Literal opcode2) (o : Operation) :
    matchOp opcode2 o vSolutions = if o.opcode = opcode2 ∧ o.vch = [] then some vSolutions else none := by
  rw [matchOp, if_neg hliteral.1, if_neg hliteral.2.1, if_neg hliteral.2.2.1]

theorem matchOp_exact (hliteral : Literal opcode2) (h : matchOp opcode2 o vSolutions = some found) :
    IsOp opcode2 o ∧ found = vSolutions := by
  rw [matchOp_literal hliteral] at h
  split_ifs at h with hop
  exact ⟨hop, (Option.some.inj h).symm⟩

end

structure PubkeyHash (script : CScript) where
  (dup hash160 hash equalverify checksig : Operation)
  code : decode script = ofOps [dup, hash160, hash, equalverify, checksig]
  isDup : IsOp OP_DUP dup
  isHash160 : IsOp OP_HASH160 hash160
  size : hash.vch.length = 20
  isEqualverify : IsOp OP_EQUALVERIFY equalverify
  isChecksig : IsOp OP_CHECKSIG checksig

structure Multisig (script : CScript) where
  opM : Operation
  keys : List Operation
  (opN checkmultisig : Operation)
  (m n : Nat)
  code : decode script = ofOps (opM :: keys ++ [opN, checkmultisig])
  decodeM : decodeOP_N opM.opcode = some m
  keySize : ∀ k ∈ keys, isKeySize k.vch = true
  decodeN : decodeOP_N opN.opcode = some n
  isCheckmultisig : IsOp OP_CHECKMULTISIG checkmultisig
  pos : 1 ≤ m
  le : m ≤ n
  count : keys.length = n

/-- The scripts that `Solver` accepts, with the operations that it reads in them. -/
inductive Form (script : CScript) : txnouttype → List Bytes → Prop
  | scripthash (h : isPayToScriptHash script = true) :
      Form script .scripthash [(script.drop 2).take 20]
  | nullData (h : isPayToScriptHash script = false) : Form script .nullData []
  | pubkey (h : isPayToScriptHash script = false) (key checksig : Operation)
      (hcode : decode script = ofOps [key, checksig]) (hkey : isKeySize key.vch = true)
      (hchecksig : IsOp OP_CHECKSIG checksig) : Form script .pubkey [key.vch]
  | pubkeyhash (h : isPayToScriptHash script = false) (o : PubkeyHash script) :
      Form script .pubkeyhash [o.hash.vch]
  | multisig (h : isPayToScriptHash script = false) (o : Multisig script) :
      Form script .multisig ([.ofNat o.m] :: o.keys.map Operation.vch ++ [[.ofNat o.n]])

theorem decodeOP_N_le (h : decodeOP_N opcode = some n) : n ≤ 16 := by
  rw [decodeOP_N] at h
  split_ifs at h with h0 h16
  · cases h
    omega
  · cases h
    have := UInt8.le_iff_toNat_le.mp h16.2
    simp only [OP_16, OP_1, UInt8.reduceToNat] at this ⊢
    omega

theorem multisigOk_iff (hm : m ≤ 16) (hn : n ≤ 16) (keys : List Bytes) :
    multisigOk ([UInt8.ofNat m] :: keys ++ [[UInt8.ofNat n]]) = true ↔
      1 ≤ m ∧ m ≤ n ∧ keys.length = n := by
  have hbyte : ∀ k ≤ 16, (UInt8.ofNat k).toNat = k := fun k hk =>
    UInt8.toNat_ofNat_of_lt (by simp only [UInt8.size]; omega)
  have hlast : ([UInt8.ofNat m] :: keys ++ [[UInt8.ofNat n]]).getLastD [] = [UInt8.ofNat n] :=
    getLastD_concat
  have hlen : ([UInt8.ofNat m] :: keys ++ [[UInt8.ofNat n]]).length - 2 = keys.length := by
    rw [length_append, length_cons, length_singleton]
    omega
  have hfirst : ([UInt8.ofNat m] :: keys ++ [[UInt8.ofNat n]]).headD [] = [UInt8.ofNat m] := rfl
  simp only [multisigOk, hlast, hlen, hfirst, headD_cons, hbyte m hm, hbyte n hn,
    Bool.not_eq_true', Bool.or_eq_false_iff, decide_eq_false_iff_not, bne_eq_false_iff_eq]
  omega

section

variable {script : CScript} {vSolutions : List Bytes}

theorem form_pubkey (h : isPayToScriptHash script = false)
    (hmatch : matchTemplate [OP_PUBKEY, OP_CHECKSIG] (decode script) [] = some vSolutions) :
    Form script .pubkey vSolutions := by
  obtain ⟨key, rest₁, v₁, hcode₁, hop₁, hmatch⟩ := matchTemplate_cons (by decide) hmatch
  obtain ⟨checksig, rest₂, v₂, hcode₂, hop₂, hmatch⟩ := matchTemplate_cons (by decide) hmatch
  obtain ⟨rfl, rfl⟩ := matchTemplate_nil hmatch
  obtain ⟨hkey, rfl⟩ := matchOp_pubkey hop₁
  obtain ⟨hchecksig, rfl⟩ := matchOp_exact (by decide) hop₂
  exact .pubkey h key checksig (by rw [hcode₁, hcode₂]; rfl) hkey hchecksig

theorem form_pubkeyhash (h : isPayToScriptHash script = false)
    (hmatch : matchTemplate [OP_DUP, OP_HASH160, OP_PUBKEYHASH, OP_EQUALVERIFY, OP_CHECKSIG]
      (decode script) [] = some vSolutions) : Form script .pubkeyhash vSolutions := by
  obtain ⟨dup, rest₁, v₁, hcode₁, hop₁, hmatch⟩ := matchTemplate_cons (by decide) hmatch
  obtain ⟨hash160, rest₂, v₂, hcode₂, hop₂, hmatch⟩ := matchTemplate_cons (by decide) hmatch
  obtain ⟨hash, rest₃, v₃, hcode₃, hop₃, hmatch⟩ := matchTemplate_cons (by decide) hmatch
  obtain ⟨equalverify, rest₄, v₄, hcode₄, hop₄, hmatch⟩ := matchTemplate_cons (by decide) hmatch
  obtain ⟨checksig, rest₅, v₅, hcode₅, hop₅, hmatch⟩ := matchTemplate_cons (by decide) hmatch
  obtain ⟨rfl, rfl⟩ := matchTemplate_nil hmatch
  obtain ⟨hdup, rfl⟩ := matchOp_exact (by decide) hop₁
  obtain ⟨hhash160, rfl⟩ := matchOp_exact (by decide) hop₂
  obtain ⟨hhash, rfl⟩ := matchOp_pubkeyhash hop₃
  obtain ⟨hequalverify, rfl⟩ := matchOp_exact (by decide) hop₄
  obtain ⟨hchecksig, rfl⟩ := matchOp_exact (by decide) hop₅
  have hcode : decode script = ofOps [dup, hash160, hash, equalverify, checksig] := by
    rw [hcode₁, hcode₂, hcode₃, hcode₄, hcode₅]
    rfl
  exact .pubkeyhash h ⟨_, _, hash, _, _, hcode, hdup, hhash160, hhash, hequalverify, hchecksig⟩

theorem form_multisig (h : isPayToScriptHash script = false)
    (hmatch : matchTemplate [OP_SMALLINTEGER, OP_PUBKEYS, OP_SMALLINTEGER, OP_CHECKMULTISIG]
      (decode script) [] = some vSolutions) (hok : multisigOk vSolutions = true) :
    Form script .multisig vSolutions := by
  obtain ⟨opM, rest₁, v₁, hcode₁, hop₁, hmatch⟩ := matchTemplate_cons (by decide) hmatch
  obtain ⟨o, rest₂, opN, rest₃, v₂, v₃, hcode₂, hscan, hop₃, hmatch⟩ := matchTemplate_keys hmatch
  obtain ⟨checkmultisig, rest₄, v₄, hcode₄, hop₄, hmatch⟩ := matchTemplate_cons (by decide) hmatch
  obtain ⟨rfl, rfl⟩ := matchTemplate_nil hmatch
  obtain ⟨keys, hcode₃, hkeys, rfl⟩ := scanKeys_eq hscan
  obtain ⟨m, hm, rfl⟩ := matchOp_smallInteger hop₁
  obtain ⟨n, hn, rfl⟩ := matchOp_smallInteger hop₃
  obtain ⟨hcms, rfl⟩ := matchOp_exact (by decide) hop₄
  have hcode : decode script = ofOps (opM :: keys ++ [opN, checkmultisig]) := by
    rw [hcode₁, hcode₂, hcode₃, hcode₄, ofOps, cons_append, foldr_cons, foldr_append]
    rfl
  obtain ⟨hpos, hle, hcount⟩ :=
    (multisigOk_iff (decodeOP_N_le hm) (decodeOP_N_le hn) (keys.map Operation.vch)).mp hok
  rw [length_map] at hcount
  exact .multisig h ⟨opM, keys, _, _, m, n, hcode, hm, hkeys, hn, hcms, hpos, hle, hcount⟩

end

theorem solver_form (h : solver script = (true, typeRet, vSolutions)) :
    Form script typeRet vSolutions := by
  rw [solver] at h
  split_ifs at h with hp2sh hnull
  · cases h
    exact .scripthash hp2sh
  · cases h
    exact .nullData (Bool.eq_false_of_not_eq_true hp2sh)
  · have hp2sh := Bool.eq_false_of_not_eq_true hp2sh
    rw [mTemplates, scanTemplates] at h
    split at h
    · next v hmatch =>
        cases h
        exact form_pubkey hp2sh hmatch
    rw [scanTemplates] at h
    split at h
    · next v hmatch =>
        cases h
        exact form_pubkeyhash hp2sh hmatch
    rw [scanTemplates] at h
    split at h
    · next v hmatch =>
        obtain ⟨hok, htype⟩ := Prod.mk.inj h
        cases htype
        exact form_multisig hp2sh hmatch hok
    · cases h

end Utsuite.Standard
