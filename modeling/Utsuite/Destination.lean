import Utsuite.CurveKeys
import Utsuite.InterpreterSafety
import Utsuite.ScriptBytes
import Utsuite.Signing
import Mathlib.Tactic.IntervalCases

namespace Utsuite.Destination

open ByteWords Transaction Script Standard ScriptBytes Interpreter List
open ScriptSign (txnouttype pushData)
open Wallet (CPubKey)
open Signing (toPubKey isValid)
open CurveKeys (samplePubKey sampleID)
open InterpreterSafety (constantHashes)

inductive CTxDestination
  | noDestination
  | keyID (id : Digest 20)
  | scriptID (id : Digest 20)
  deriving DecidableEq

inductive Abort
  | assertion

def uint160 (vch : Bytes) : Except Abort (Digest 20) :=
  if h : vch.length = 20 then .ok ⟨vch, h⟩ else .error .assertion

def extractDestination (P : Primitives) (scriptPubKey : CScript) :
    Except Abort (Option CTxDestination) :=
  match solver scriptPubKey with
  | (false, _, _) => .ok none
  | (true, .pubkey, vSolutions) =>
    let pubKey := toPubKey (vSolutions.headD [])
    if !isValid pubKey then .ok none else .ok (some (.keyID (P.hash160 pubKey)))
  | (true, .pubkeyhash, vSolutions) =>
    (uint160 (vSolutions.headD [])).map fun id => some (.keyID id)
  | (true, .scripthash, vSolutions) =>
    (uint160 (vSolutions.headD [])).map fun id => some (.scriptID id)
  | (true, _, _) => .ok none

def getScriptForDestination : CTxDestination → CScript
  | .noDestination => []
  | .keyID id => OP_DUP :: OP_HASH160 :: (pushData id.1 ++ [OP_EQUALVERIFY, OP_CHECKSIG])
  | .scriptID id => OP_HASH160 :: (pushData id.1 ++ [OP_EQUAL])

def encodeOP_N (n : Int) : Except Abort opcodetype :=
  if 0 ≤ n ∧ n ≤ 16 then
    if n = 0 then .ok OP_0 else .ok (.ofNat (OP_1.toNat + n.toNat - 1))
  else .error .assertion

def getScriptForMultisig (nRequired : Int) (keys : List CPubKey) : Except Abort CScript := do
  let opM ← encodeOP_N nRequired
  let opN ← encodeOP_N ((keys.length : Int).bmod (2 ^ 32))
  .ok (opM :: (pushes keys ++ [opN, OP_CHECKMULTISIG]))

section

variable {opcode : opcodetype} {n : Nat}

theorem encodeOP_N_ok (h : n ≤ 16) :
    ∃ opcode, encodeOP_N n = .ok opcode ∧ decodeOP_N opcode = some n := by
  interval_cases n <;> exact ⟨_, rfl, rfl⟩

theorem encode_of_decode (h : decodeOP_N opcode = some n) : encodeOP_N n = .ok opcode := by
  have h16 := decodeOP_N_le h
  rw [decodeOP_N] at h
  rw [encodeOP_N, if_pos (by omega)]
  split_ifs at h with h0 hrange
  · cases h
    rw [h0]
    rfl
  · have hlow := UInt8.le_iff_toNat_le.mp hrange.1
    have hn := Option.some.inj h
    simp only [OP_1, UInt8.reduceToNat] at hlow hn ⊢
    rw [if_neg (by omega)]
    have heq : 81 + (n : Int).toNat - 1 = opcode.toNat := by omega
    rw [heq, UInt8.ofNat_toNat]

theorem getOp_above (h : ¬opcode ≤ OP_PUSHDATA4) (rest : CScript) :
    getOp (opcode :: rest) = .ok ⟨opcode, [], rest⟩ := by
  rw [getOp, if_neg h]

theorem decode_above (h : ¬opcode ≤ OP_PUSHDATA4) (rest : CScript) :
    decode (opcode :: rest) = .op ⟨opcode, [], rest⟩ (decode rest) :=
  decode_ok (getOp_above h rest)

theorem number_le (h : decodeOP_N opcode = some n) : opcode ≤ OP_16 := by
  rw [decodeOP_N] at h
  split_ifs at h with h0 hrange
  · rw [h0]
    decide
  · exact hrange.2

end

section

variable {vSolutions : List Bytes}

theorem isPayToScriptHash_cons (h : opcode ≠ OP_HASH160) :
    isPayToScriptHash (opcode :: rest) = false := by
  have hfirst : ((opcode :: rest)[0]? == some OP_HASH160) = false := by
    rw [getElem?_cons_zero, beq_eq_false_iff_ne]
    exact fun heq => h (Option.some.inj heq)
  rw [isPayToScriptHash, hfirst, Bool.and_false, Bool.false_and, Bool.false_and]

theorem solver_cons (hhash : opcode ≠ OP_HASH160) (hreturn : opcode ≠ OP_RETURN) :
    solver (opcode :: rest) = scanTemplates (decode (opcode :: rest)) mTemplates := by
  rw [solver, isPayToScriptHash_cons hhash, if_neg Bool.false_ne_true]
  exact if_neg fun h => hreturn h.2.1

theorem scanKeys_key (h : isKeySize key.vch = true) :
    scanKeys key (.op o rest) vSolutions = scanKeys o rest (vSolutions ++ [key.vch]) := by
  rw [scanKeys, if_pos h]

theorem scanKeys_other (h : isKeySize o.vch = false) :
    scanKeys o rest vSolutions = some (o, rest, vSolutions) := by
  unfold scanKeys
  exact if_neg (by rw [h]; exact Bool.false_ne_true)

theorem scanKeys_ofOps {key o : Operation} {keys rest : List Operation}
    (hkeys : ∀ k ∈ key :: keys, isKeySize k.vch = true) (ho : isKeySize o.vch = false) :
    scanKeys key (ofOps (keys ++ o :: rest)) vSolutions =
      some (o, ofOps rest, vSolutions ++ (key :: keys).map Operation.vch) := by
  induction keys generalizing key vSolutions with
  | nil =>
    rw [nil_append, ofOps_cons, scanKeys_key (hkeys key mem_cons_self),
      scanKeys_other ho]
    rfl
  | cons key' keys ih =>
    obtain ⟨hkey, hkeys⟩ := forall_mem_cons.mp hkeys
    rw [cons_append, ofOps_cons, scanKeys_key hkey, ih hkeys, append_assoc]
    rfl

theorem matchOp_number (h : decodeOP_N o.opcode = some n) :
    matchOp OP_SMALLINTEGER o vSolutions = some (vSolutions ++ [[.ofNat n]]) := by
  rw [matchOp, if_neg (by decide), if_neg (by decide), if_pos rfl, h]
  rfl

theorem matchTemplate_op (hkeys : opcode2 ≠ OP_PUBKEYS) :
    matchTemplate (opcode2 :: template) (ofOps (o :: ops)) vSolutions =
      (matchOp opcode2 o vSolutions).bind (matchTemplate template (ofOps ops)) := by
  rw [ofOps_cons, matchTemplate.eq_def]
  dsimp only
  rw [if_neg hkeys]
  cases matchOp opcode2 o vSolutions <;> rfl

theorem matchTemplate_isOp (hliteral : Literal opcode2) (ho : IsOp opcode2 o) :
    matchTemplate (opcode2 :: template) (ofOps (o :: ops)) vSolutions =
      matchTemplate template (ofOps ops) vSolutions := by
  rw [matchTemplate_op hliteral.2.2.2, matchOp_literal hliteral, if_pos ⟨ho.1, ho.2⟩, Option.bind_some]

theorem matchTemplate_pubkeys {opcode2 : opcodetype} {template : List opcodetype}
    {key o : Operation} {keys ops : List Operation}
    (hkeys : ∀ k ∈ key :: keys, isKeySize k.vch = true) (ho : isKeySize o.vch = false) :
    matchTemplate (OP_PUBKEYS :: opcode2 :: template) (ofOps (key :: keys ++ o :: ops)) vSolutions =
      (matchOp opcode2 o (vSolutions ++ (key :: keys).map Operation.vch)).bind
        (matchTemplate template (ofOps ops)) := by
  rw [cons_append, ofOps_cons, matchTemplate, if_pos rfl, scanKeys_ofOps hkeys ho]
  dsimp only
  cases matchOp opcode2 o (vSolutions ++ (key :: keys).map Operation.vch) <;> rfl

theorem scanTemplates_number (hm : decodeOP_N o.opcode = some m) (ho : o.vch = []) :
    scanTemplates (ofOps (o :: ops)) mTemplates =
      scanTemplates (ofOps (o :: ops)) [(.multisig,
        [OP_SMALLINTEGER, OP_PUBKEYS, OP_SMALLINTEGER, OP_CHECKMULTISIG])] := by
  have hpubkey : matchOp OP_PUBKEY o [] = none := by
    rw [matchOp, if_pos rfl, ho]
    rfl
  have hpubkeyhash : matchOp OP_DUP o [] = none := by
    have hdup : ¬(o.opcode = OP_DUP ∧ o.vch = []) := by
      rintro ⟨heq, -⟩
      have hle := number_le hm
      rw [heq] at hle
      exact absurd hle (by decide)
    rw [matchOp_literal (by decide), if_neg hdup]
  rw [mTemplates, scanTemplates, matchTemplate_op (by decide), hpubkey, Option.bind_none]
  rw [scanTemplates, matchTemplate_op (by decide), hpubkeyhash, Option.bind_none]

theorem solver_multisig {opcode : opcodetype} {rest : CScript} (s : Multisig (opcode :: rest))
    (hopcode : s.opM.opcode = opcode) :
    solver (opcode :: rest) = (true, .multisig,
      [.ofNat s.m] :: s.keys.map Operation.vch ++ [[.ofNat s.n]]) := by
  obtain ⟨opM, keys, opN, checkmultisig, m, n, hcode, hm, hkeys, hn, hcheckmultisig, hpos, hle, rfl⟩ := s
  dsimp only at hopcode ⊢
  subst hopcode
  have hvch {o : Operation} {k : Nat} (hmem : o ∈ opM :: keys ++ [opN, checkmultisig])
      (hk : decodeOP_N o.opcode = some k) (hpos : 1 ≤ k) : o.vch = [] :=
    vch_of_ofOps hcode hmem (not_push_of_number hk hpos)
  have hvchM := hvch mem_cons_self hm hpos
  have hvchN := hvch (mem_append_right _ mem_cons_self) hn (hpos.trans hle)
  have hlow {opcode : opcodetype} (h : ¬opcode ≤ OP_16) : opM.opcode ≠ opcode :=
    fun heq => h (heq ▸ number_le hm)
  have hmatch : matchTemplate [OP_SMALLINTEGER, OP_PUBKEYS, OP_SMALLINTEGER, OP_CHECKMULTISIG]
      (ofOps (opM :: (keys ++ [opN, checkmultisig]))) [] =
        some ([.ofNat m] :: keys.map Operation.vch ++ [[.ofNat keys.length]]) := by
    rw [matchTemplate_op (by decide), matchOp_number hm, Option.bind_some]
    cases keys with
    | nil => exact absurd hle (not_le.mpr hpos)
    | cons key keys =>
      have hsize : isKeySize opN.vch = false := by
        rw [hvchN]
        rfl
      rw [matchTemplate_pubkeys hkeys hsize, matchOp_number hn, Option.bind_some,
        matchTemplate_isOp (by decide) hcheckmultisig]
      rfl
  have hok := (multisigOk_iff (decodeOP_N_le hm) (decodeOP_N_le hn)
    (keys.map Operation.vch)).mpr ⟨hpos, hle, length_map _⟩
  rw [solver_cons (hlow (by decide)) (hlow (by decide)), hcode, cons_append,
    scanTemplates_number hm hvchM, scanTemplates, hmatch]
  dsimp only
  rw [hok, Bool.or_true]

theorem decode_pushes {keys : List Bytes} (hkeys : ∀ key ∈ keys, isKeySize key = true)
    {rest : CScript} {ops : List Operation} (hrest : decode rest = ofOps ops) :
    ∃ opKeys : List Operation, decode (pushes keys ++ rest) = ofOps (opKeys ++ ops) ∧
      opKeys.map Operation.vch = keys := by
  induction keys with
  | nil => exact ⟨[], hrest, rfl⟩
  | cons key keys ih =>
    obtain ⟨hkey, hkeys⟩ := forall_mem_cons.mp hkeys
    obtain ⟨opKeys, hcode, hvch⟩ := ih hkeys
    have hlen : key.length < 2 ^ 32 := (isKeySize_iff.mp hkey).2.trans_lt (by decide)
    refine ⟨⟨pushOpcode key, key, pushes keys ++ rest⟩ :: opKeys, ?_, ?_⟩
    · rw [pushes_cons, append_assoc, decode_pushData key _ hlen, hcode]
      rfl
    · rw [map_cons, hvch]

theorem getScriptForMultisig_solved {m : Nat} {keys : List CPubKey}
    (hkeys : ∀ key ∈ keys, isKeySize key = true) (hpos : 1 ≤ m) (hle : m ≤ keys.length)
    (h16 : keys.length ≤ 16) :
    ∃ script, getScriptForMultisig m keys = .ok script ∧ solver script =
      (true, .multisig, [.ofNat m] :: keys ++ [[.ofNat keys.length]]) := by
  obtain ⟨opM, hencM, hm⟩ := encodeOP_N_ok (hle.trans h16)
  obtain ⟨opN, hencN, hn⟩ := encodeOP_N_ok h16
  have hint : ((keys.length : Int).bmod (2 ^ 32)) = keys.length := by
    apply Int.bmod_eq_of_le <;> omega
  have hend : decode [opN, OP_CHECKMULTISIG] =
      ofOps [⟨opN, [], [OP_CHECKMULTISIG]⟩, ⟨OP_CHECKMULTISIG, [], []⟩] := by
    rw [decode_above (not_push_of_number hn (hpos.trans hle)), decode_above (by decide)]
    rfl
  obtain ⟨opKeys, hcode, hvch⟩ := decode_pushes hkeys hend
  have hlen : opKeys.length = keys.length := by rw [← hvch, length_map]
  have hsizes : ∀ k ∈ opKeys, isKeySize k.vch = true := fun k hk =>
    hkeys _ (hvch ▸ mem_map_of_mem hk)
  refine ⟨opM :: (pushes keys ++ [opN, OP_CHECKMULTISIG]), ?_, ?_⟩
  · rw [getScriptForMultisig, hencM, hint, hencN]
    rfl
  · have hall : decode (opM :: (pushes keys ++ [opN, OP_CHECKMULTISIG])) =
        ofOps (⟨opM, [], pushes keys ++ [opN, OP_CHECKMULTISIG]⟩ :: opKeys ++
          [⟨opN, [], [OP_CHECKMULTISIG]⟩, ⟨OP_CHECKMULTISIG, [], []⟩]) := by
      rw [decode_above (not_push_of_number hm hpos), hcode]
      rfl
    have hsolved := solver_multisig ⟨_, opKeys, _, _, m, keys.length, hall, hm, hsizes, hn,
      ⟨rfl, rfl⟩, hpos, hle, hlen⟩ rfl
    rw [hvch] at hsolved
    exact hsolved

end

theorem pushData_id (id : Digest 20) : pushData id.1 = 0x14 :: id.1 := by
  rw [pushData, if_pos (by rw [id.2]; decide), id.2]
  rfl

theorem solver_pubkeyhash {rest : CScript} (s : PubkeyHash (OP_DUP :: rest)) :
    solver (OP_DUP :: rest) = (true, .pubkeyhash, [s.hash.vch]) := by
  obtain ⟨dup, hash160, hash, equalverify, checksig, hcode, hdup, hhash160, hhash, hequalverify,
    hchecksig⟩ := s
  have hpubkey : matchOp OP_PUBKEY dup [] = none := by
    rw [matchOp, if_pos rfl, hdup.2]
    rfl
  have hmatchHash : matchOp OP_PUBKEYHASH hash [] = some [hash.vch] := by
    rw [matchOp, if_neg (by decide), if_pos rfl, if_pos hhash]
    rfl
  have hmatch : matchTemplate [OP_DUP, OP_HASH160, OP_PUBKEYHASH, OP_EQUALVERIFY, OP_CHECKSIG]
      (ofOps [dup, hash160, hash, equalverify, checksig]) [] = some [hash.vch] := by
    rw [matchTemplate_isOp (by decide) hdup, matchTemplate_isOp (by decide) hhash160,
      matchTemplate_op (by decide), hmatchHash, Option.bind_some,
      matchTemplate_isOp (by decide) hequalverify, matchTemplate_isOp (by decide) hchecksig]
    rfl
  rw [solver_cons (by decide) (by decide), hcode, mTemplates, scanTemplates,
    matchTemplate_op (by decide), hpubkey, Option.bind_none]
  rw [scanTemplates, hmatch]
  rfl

theorem solver_keyID (id : Digest 20) :
    solver (getScriptForDestination (.keyID id)) = (true, .pubkeyhash, [id.1]) := by
  have hcode : decode (getScriptForDestination (.keyID id)) =
      ofOps [⟨OP_DUP, [], OP_HASH160 :: (pushData id.1 ++ [OP_EQUALVERIFY, OP_CHECKSIG])⟩,
        ⟨OP_HASH160, [], pushData id.1 ++ [OP_EQUALVERIFY, OP_CHECKSIG]⟩,
        ⟨pushOpcode id.1, id.1, [OP_EQUALVERIFY, OP_CHECKSIG]⟩,
        ⟨OP_EQUALVERIFY, [], [OP_CHECKSIG]⟩, ⟨OP_CHECKSIG, [], []⟩] := by
    rw [getScriptForDestination, decode_above (by decide), decode_above (by decide),
      decode_pushData _ _ (by rw [id.2]; decide)]
    rfl
  exact solver_pubkeyhash ⟨_, _, _, _, _, hcode, ⟨rfl, rfl⟩, ⟨rfl, rfl⟩, id.2, ⟨rfl, rfl⟩, ⟨rfl, rfl⟩⟩

theorem solver_scriptID (id : Digest 20) :
    solver (getScriptForDestination (.scriptID id)) = (true, .scripthash, [id.1]) := by
  have hscript : getScriptForDestination (.scriptID id) =
      OP_HASH160 :: 0x14 :: (id.1 ++ [OP_EQUAL]) := by
    rw [getScriptForDestination, pushData_id]
    rfl
  have hp2sh : isPayToScriptHash (OP_HASH160 :: 0x14 :: (id.1 ++ [OP_EQUAL])) = true := by
    have hlast : (OP_HASH160 :: 0x14 :: (id.1 ++ [OP_EQUAL]))[22]? = some OP_EQUAL := by
      rw [getElem?_cons_succ, getElem?_cons_succ,
        getElem?_append_right (by rw [id.2]), id.2]
      rfl
    have hlen : (OP_HASH160 :: 0x14 :: (id.1 ++ [OP_EQUAL])).length = 23 := by
      rw [length_cons, length_cons, length_append, id.2]
      rfl
    rw [isPayToScriptHash, hlast, hlen]
    rfl
  have hid : ((OP_HASH160 :: 0x14 :: (id.1 ++ [OP_EQUAL])).drop 2).take 20 = id.1 :=
    take_left' id.2
  rw [hscript, solver, if_pos hp2sh, hid]

theorem uint160_id (id : Digest 20) : uint160 id.1 = .ok id := dif_pos id.2

theorem extractDestination_script (P : Primitives) (h : d ≠ .noDestination) :
    extractDestination P (getScriptForDestination d) = .ok (some d) := by
  cases d with
  | noDestination => exact absurd rfl h
  | keyID id =>
    rw [extractDestination, solver_keyID]
    change (uint160 id.1).map _ = _
    rw [uint160_id]
    rfl
  | scriptID id =>
    rw [extractDestination, solver_scriptID]
    change (uint160 id.1).map _ = _
    rw [uint160_id]
    rfl

theorem extractDestination_ok (P : Primitives) (scriptPubKey : CScript) :
    ∃ address, extractDestination P scriptPubKey = .ok address := by
  rw [extractDestination]
  rcases hsolver : solver scriptPubKey with ⟨_ | _, typeRet, vSolutions⟩
  · exact ⟨none, rfl⟩
  · cases solver_form hsolver with
    | scripthash h =>
      have hlen : ((scriptPubKey.drop 2).take 20).length = 20 := by
        simp only [isPayToScriptHash, Bool.and_eq_true, beq_iff_eq] at h
        rw [length_take, length_drop]
        omega
      exact ⟨_, congrArg (Except.map _) (dif_pos hlen)⟩
    | nullData => exact ⟨none, rfl⟩
    | pubkey =>
      dsimp only
      split_ifs
      · exact ⟨_, rfl⟩
      · exact ⟨_, rfl⟩
    | pubkeyhash _ o => exact ⟨_, congrArg (Except.map _) (dif_pos o.size)⟩
    | multisig => exact ⟨none, rfl⟩

def IsNumber (n : Nat) (o : Operation) : Prop := encodeOP_N n = .ok o.opcode ∧ o.vch = []

def IsPush (o : Operation) (vch : Bytes) : Prop := o.opcode ≤ OP_PUSHDATA4 ∧ o.vch = vch

structure IsMultisig (script : CScript) (m : Nat) (keys : List Bytes) : Prop where
  pos : 1 ≤ m
  le : m ≤ keys.length
  keySize : ∀ key ∈ keys, 33 ≤ key.length ∧ key.length ≤ 65
  code : ∃ (opM : Operation) (opKeys : List Operation) (opN checkmultisig : Operation),
    decode script = ofOps (opM :: opKeys ++ [opN, checkmultisig]) ∧ IsNumber m opM ∧
      List.Forall₂ IsPush opKeys keys ∧ IsNumber keys.length opN ∧
      IsOp OP_CHECKMULTISIG checkmultisig

theorem isMultisig_of_solver (h : solver script = (true, .multisig, vSolutions)) :
    ∃ m keys, vSolutions = [.ofNat m] :: keys ++ [[.ofNat keys.length]] ∧
      keys.length ≤ 16 ∧ IsMultisig script m keys := by
  cases solver_form h with
  | multisig _ s =>
    have hvchM := vch_of_ofOps s.code mem_cons_self (not_push_of_number s.decodeM s.pos)
    have hvchN := vch_of_ofOps s.code (mem_append_right _ mem_cons_self)
      (not_push_of_number s.decodeN (s.pos.trans s.le))
    have hpush : List.Forall₂ IsPush s.keys (s.keys.map Operation.vch) := by
      rw [forall₂_map_right_iff, forall₂_same]
      intro o ho
      refine ⟨opcode_le_of_vch s.code ?_ (ne_nil_of_isKeySize (s.keySize o ho)), rfl⟩
      exact mem_append_left _ (mem_cons_of_mem _ ho)
    have hcount : (s.keys.map Operation.vch).length = s.n := (length_map _).trans s.count
    refine ⟨s.m, s.keys.map Operation.vch, by rw [hcount], hcount.trans_le (decodeOP_N_le s.decodeN),
      s.pos, s.le.trans_eq hcount.symm, ?_, ?_⟩
    · intro key hkey
      obtain ⟨o, ho, rfl⟩ := mem_map.mp hkey
      exact isKeySize_iff.mp (s.keySize o ho)
    · rw [hcount]
      exact ⟨_, _, _, _, s.code, ⟨encode_of_decode s.decodeM, hvchM⟩, hpush,
        ⟨encode_of_decode s.decodeN, hvchN⟩, s.isCheckmultisig⟩

/-- Every destination is recognised from the script that is made for it, and so is every multisig
with up to 16 keys. What is recognised as a multisig has that form. -/
theorem standard_scripts_recognised (P : Primitives) :
    (∀ d : CTxDestination, d ≠ .noDestination →
      extractDestination P (getScriptForDestination d) = .ok (some d)) ∧
    (∀ (m : Nat) (keys : List CPubKey), (∀ key ∈ keys, isKeySize key = true) → 1 ≤ m →
      m ≤ keys.length → keys.length ≤ 16 →
      ∃ script, getScriptForMultisig m keys = .ok script ∧ solver script =
        (true, .multisig, [.ofNat m] :: keys ++ [[.ofNat keys.length]])) ∧
    ∀ (script : CScript) (vSolutions : List Bytes),
      solver script = (true, .multisig, vSolutions) →
      ∃ m keys, vSolutions = [.ofNat m] :: keys ++ [[.ofNat keys.length]] ∧
        keys.length ≤ 16 ∧ IsMultisig script m keys :=
  ⟨fun _ => extractDestination_script P, fun _ _ => getScriptForMultisig_solved,
    fun _ _ => isMultisig_of_solver⟩

theorem standard_scripts_recognised_twoOfThree :
    (∃ d : CTxDestination, d ≠ .noDestination ∧
      extractDestination constantHashes (getScriptForDestination d) = .ok (some d)) ∧
    ∃ script m keys, getScriptForMultisig 2 [samplePubKey 1, samplePubKey 2, samplePubKey 3] = .ok script ∧
      solver script =
        (true, .multisig, [[2], samplePubKey 1, samplePubKey 2, samplePubKey 3, [3]]) ∧
      IsMultisig script m keys := by
  obtain ⟨hdestination, hmultisig, hform⟩ := standard_scripts_recognised constantHashes
  refine ⟨⟨.keyID ⟨sampleID 1, beBytes_length _ _⟩, nofun, hdestination _ nofun⟩, ?_⟩
  have hsizes : ([samplePubKey 1, samplePubKey 2, samplePubKey 3].all isKeySize) = true := by
    decide +kernel
  obtain ⟨script, hscript, hsolver⟩ := hmultisig 2 [samplePubKey 1, samplePubKey 2, samplePubKey 3]
    (all_eq_true.mp hsizes) (by decide) (by decide) (by decide)
  obtain ⟨m, keys, -, -, hshape⟩ := hform script _ hsolver
  exact ⟨script, m, keys, hscript, hsolver, hshape⟩

end Utsuite.Destination
