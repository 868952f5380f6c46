import Mathlib.Data.Set.Finite.List
import Utsuite.CombineMultisig
import Utsuite.CurveKeys
import Utsuite.PartialChain
import Utsuite.Signing

namespace Utsuite.IsMine

open ByteWords Transaction Script Interpreter SignatureHash Standard ScriptBytes OpcodeRun ScriptRun GreedyMatch Signing List
open PartialChain
open CombineMultisig (required_eq pubkeys_eq)
open CurveKeys (sampleKey samplePubKey sampleID)
open ScriptSign (txnouttype pushData required pubkeys)
open Wallet (CKey CPubKey CKeyID)

inductive isminetype
  | ISMINE_NO
  | ISMINE_WATCH_UNSOLVABLE
  | ISMINE_WATCH_SOLVABLE
  | ISMINE_SPENDABLE
  deriving DecidableEq

open isminetype

section

variable (P : Primitives) (keystore : CKeyStore)

def haveKeys (pubkeys : List Bytes) : Nat :=
  pubkeys.countP fun pubkey => keystore.haveKey (getID P (toPubKey pubkey))

def watched (scriptPubKey : CScript) : isminetype :=
  if keystore.haveWatchOnly scriptPubKey then
    if (produceSignature P (dummySignatureCreator keystore) scriptPubKey).1 then ISMINE_WATCH_SOLVABLE
    else ISMINE_WATCH_UNSOLVABLE
  else ISMINE_NO

def spendableIf (c : Bool) (scriptPubKey : CScript) : isminetype :=
  if c then ISMINE_SPENDABLE else watched P keystore scriptPubKey

/-- `IsMine` with a bound on the calls in one another. `none` says that the bound does not suffice.
-/
def isMine : Nat → CScript → Option isminetype
  | 0, _ => none
  | depth + 1, scriptPubKey =>
    match solver scriptPubKey with
    | (false, _, _) =>
      some (if keystore.haveWatchOnly scriptPubKey then ISMINE_WATCH_UNSOLVABLE else ISMINE_NO)
    | (true, whichType, vSolutions) =>
      let solution := vSolutions.headD []
      match whichType with
      | .nonstandard | .nullData => some (watched P keystore scriptPubKey)
      | .pubkey =>
        some (spendableIf P keystore (keystore.haveKey (getID P (toPubKey solution))) scriptPubKey)
      | .pubkeyhash => some (spendableIf P keystore (keystore.haveKey solution) scriptPubKey)
      | .scripthash =>
        match keystore.getCScript solution with
        | none => some (watched P keystore scriptPubKey)
        | some subscript => (isMine depth subscript).map fun ret =>
          spendableIf P keystore (ret == ISMINE_SPENDABLE) scriptPubKey
      | .multisig =>
        let keys := pubkeys vSolutions
        some (spendableIf P keystore (haveKeys P keystore keys == keys.length) scriptPubKey)

def redeemScript (script : CScript) : Option CScript :=
  if isPayToScriptHash script then keystore.getCScript ((script.drop 2).take 20) else none

end

section

variable {P : Primitives} {keystore : CKeyStore} {script : CScript}

theorem isMine_of_some (h : redeemScript keystore script = some sub) (depth : Nat) :
    isMine P keystore (depth + 1) script = (isMine P keystore depth sub).map fun ret =>
      spendableIf P keystore (ret == ISMINE_SPENDABLE) script := by
  rw [redeemScript] at h
  split_ifs at h with hspk
  rw [isMine, solver, if_pos hspk]
  dsimp only [headD_cons]
  rw [h]

theorem isMine_unredeemed (hspk : isPayToScriptHash script = true)
    (h : redeemScript keystore script = none) (depth : Nat) :
    isMine P keystore (depth + 1) script = some (watched P keystore script) := by
  rw [redeemScript, if_pos hspk] at h
  rw [isMine, solver, if_pos hspk]
  dsimp only [headD_cons]
  rw [h]

theorem isMine_of_none (h : redeemScript keystore script = none) :
    ∃ ret, ∀ depth, isMine P keystore (depth + 1) script = some ret := by
  rcases hsolver : solver script with ⟨solved, whichType, vSolutions⟩
  cases solved with
  | false => exact ⟨_, fun depth => by rw [isMine, hsolver]⟩
  | true =>
    cases whichType with
    | nonstandard | nullData | pubkey | pubkeyhash | multisig =>
      exact ⟨_, fun depth => by rw [isMine, hsolver]⟩
    | scripthash =>
      cases solver_form hsolver with
      | scripthash hspk => exact ⟨_, isMine_unredeemed hspk h⟩

theorem isMine_ends_iff :
    (∃ depth ret, isMine P keystore depth script = some ret) ↔ Ends (redeemScript keystore) script := by
  constructor
  · rintro ⟨depth, ret, h⟩
    induction depth generalizing script ret with
    | zero => cases h
    | succ depth ih =>
      cases hredeem : redeemScript keystore script with
      | none => exact ends_of_none hredeem
      | some sub =>
        rw [isMine_of_some hredeem] at h
        obtain ⟨ret', hret', -⟩ := Option.map_eq_some_iff.mp h
        exact (ends_iff_of_some hredeem).mpr (ih ret' hret')
  · rintro ⟨n, hn⟩
    induction n generalizing script with
    | zero => cases hn
    | succ n ih =>
      cases hredeem : redeemScript keystore script with
      | none =>
        obtain ⟨ret, hret⟩ := isMine_of_none (P := P) hredeem
        exact ⟨1, ret, hret 0⟩
      | some sub =>
        rw [steps, hredeem, Option.bind_some] at hn
        obtain ⟨depth, ret, hret⟩ := ih hn
        refine ⟨depth + 1, spendableIf P keystore (ret == ISMINE_SPENDABLE) script, ?_⟩
        rw [isMine_of_some hredeem, hret, Option.map_some]

theorem isMine_returns_iff :
    (∃ depth ret, isMine P keystore depth script = some ret) ↔ ¬Loops (redeemScript keystore) script := by
  have hbytes : Finite UInt8 := Finite.of_injective UInt8.toFin fun _ _ => UInt8.toFin_inj.mp
  rw [isMine_ends_iff, ends_iff]
  refine (finite_length_eq UInt8 23).subset fun script hscript => ?_
  have hspk : isPayToScriptHash script = true := by
    by_contra hspk
    exact hscript (if_neg hspk)
  simp only [isPayToScriptHash, Bool.and_eq_true, beq_iff_eq] at hspk
  exact hspk.1.1.1

end

/-- The keystore holds each key and each script under its own hash, and no other value has this
hash. -/
structure Matching (P : Primitives) (E : Curve) (keystore : CKeyStore) : Prop where
  key : ∀ address, keystore.haveKey address = true → ∃ key, keystore.getKey address = some key ∧
    keystore.getPubKey address = some (E.getPubKey key) ∧
    ∀ vch, (P.hash160 vch).1 = address ↔ vch = E.getPubKey key
  script : ∀ hash script, keystore.getCScript hash = some script →
    (P.hash160 script).1 = hash ∧ script.length ≤ MAX_SCRIPT_ELEMENT_SIZE

/-- What is expected of the curve: keys and signatures are well formed, and signatures verify. -/
structure Sound (P : Primitives) (E : Curve) : Prop where
  pubkey : ∀ key, isCompressedOrUncompressedPubKey (E.getPubKey key) = true
  verify : ∀ key hash, E.verify (E.getPubKey key) hash (E.sign key hash) = true
  strict : ∀ key hash, isValidSignatureEncoding (E.sign key hash ++ [.ofNat SIGHASH_ALL]) = some true
  lowS : ∀ key hash, P.checkLowS (E.sign key hash) = true
  long : ∀ key hash, 20 ≤ (E.sign key hash).length

section

variable {P : Primitives} {E : Curve} {keystore : CKeyStore}

theorem toPubKey_cons (chHeader : UInt8) (rest : Bytes) :
    toPubKey (chHeader :: rest) =
      if getLen chHeader = (chHeader :: rest).length then chHeader :: rest else [] := rfl

theorem eq_of_toPubKey_ne (h : toPubKey vch ≠ []) : vch = toPubKey vch := by
  cases vch with
  | nil => rfl
  | cons chHeader rest =>
    rw [toPubKey_cons] at h ⊢
    split_ifs at h ⊢
    · rfl
    · exact absurd rfl h

theorem header_of_compressed (h : isCompressedOrUncompressedPubKey vch = true) :
    vch.headD 0 = 4 ∧ vch.length = 65 ∨ (vch.headD 0 = 2 ∨ vch.headD 0 = 3) ∧ vch.length = 33 := by
  rw [isCompressedOrUncompressedPubKey] at h
  split_ifs at h with _ h4 h23
  · exact .inl ⟨h4, beq_iff_eq.mp h⟩
  · exact .inr ⟨h23, beq_iff_eq.mp h⟩

theorem length_of_compressed (h : isCompressedOrUncompressedPubKey vch = true) :
    33 ≤ vch.length ∧ vch.length ≤ 65 := by
  obtain ⟨-, hlen⟩ | ⟨-, hlen⟩ := header_of_compressed h
  · omega
  · omega

theorem pubkey_of_compressed (h : isCompressedOrUncompressedPubKey vch = true) :
    toPubKey vch = vch ∧ vch ≠ [] ∧ vch.headD 0 ≠ 0x30 := by
  have hheader := header_of_compressed h
  cases vch with
  | nil => simp at hheader
  | cons chHeader rest =>
    rw [toPubKey_cons]
    obtain ⟨rfl, hlen⟩ | ⟨rfl | rfl, hlen⟩ : chHeader = 4 ∧ (chHeader :: rest).length = 65 ∨
        (chHeader = 2 ∨ chHeader = 3) ∧ (chHeader :: rest).length = 33 := hheader
    all_goals
      rw [hlen]
      refine ⟨if_pos rfl, cons_ne_nil _ _, ?_⟩
      rw [headD_cons]
      decide

theorem Matching.of_pubkey (h : Matching P E keystore) (hsound : Sound P E)
    (hhave : keystore.haveKey (getID P (toPubKey vch)) = true) :
    ∃ key, keystore.getKey (getID P (toPubKey vch)) = some key ∧ vch = E.getPubKey key := by
  obtain ⟨key, hget, -, hid⟩ := h.key _ hhave
  have hkey : toPubKey vch = E.getPubKey key := (hid _).mp rfl
  have hne := (pubkey_of_compressed (hsound.pubkey key)).2.1
  rw [← hkey] at hne
  exact ⟨key, hget, (eq_of_toPubKey_ne hne).trans hkey⟩

end

section

def signature (P : Primitives) (E : Curve) (txTo : CMutableTransaction) (nIn : Nat) (key : CKey)
    (script : CScript) : Bytes :=
  E.sign key (signatureHash P script txTo nIn (Int32.ofNat SIGHASH_ALL)) ++ [.ofNat SIGHASH_ALL]

variable {P : Primitives} {E : Curve} {txTo : CMutableTransaction} {nIn : Nat} {key : CKey}
  {script : CScript}

theorem refuse_eq_true (h : refuse c k = some true) : c = some false ∧ k = some true := by
  cases c with
  | none => cases h
  | some c =>
    cases c with
    | false => exact ⟨rfl, h⟩
    | true => cases h

theorem bounds_of_strict (h : isValidSignatureEncoding sig = some true) :
    9 ≤ sig.length ∧ sig.length ≤ 73 ∧ sig.headD 0 = 0x30 := by
  rw [isValidSignatureEncoding] at h
  obtain ⟨hmin, h⟩ := refuse_eq_true h
  obtain ⟨hmax, h⟩ := refuse_eq_true h
  obtain ⟨hfirst, -⟩ := refuse_eq_true h
  have hmin' := of_decide_eq_false (Option.some.inj hmin)
  have hmax' := of_decide_eq_false (Option.some.inj hmax)
  refine ⟨by omega, by omega, ?_⟩
  cases sig with
  | nil => cases hfirst
  | cons first rest =>
    have hbyte : (first != 0x30) = false := Option.some.inj hfirst
    exact bne_eq_false_iff_eq.mp hbyte

theorem checkMinimalPush_pushOpcode (h : 2 ≤ b.length) :
    checkMinimalPush b (pushOpcode b) = true := by
  rw [checkMinimalPush, if_neg (by omega), if_neg (by omega), if_neg (by omega), pushOpcode]
  by_cases h75 : b.length ≤ 75
  · rw [if_pos h75, if_pos (by omega), toNat_ofNat (by omega)]
    exact beq_self_eq_true _
  have h76 : ¬b.length < 0x4c := by omega
  rw [if_neg h75, if_neg h76]
  by_cases h255 : b.length ≤ 255
  · rw [if_pos h255, if_pos h255]
    rfl
  rw [if_neg h255, if_neg h255]
  by_cases h65535 : b.length ≤ 65535
  · rw [if_pos h65535, if_pos h65535]
    rfl
  · rw [if_neg h65535]

variable (hsound : Sound P E)

include hsound

theorem signature_bounds (txTo : CMutableTransaction) (nIn : Nat) (key : CKey) (script : CScript) :
    21 ≤ (signature P E txTo nIn key script).length ∧
    (signature P E txTo nIn key script).length ≤ 73 := by
  refine ⟨?_, (bounds_of_strict (hsound.strict key _)).2.1⟩
  rw [signature, length_append]
  exact Nat.succ_le_succ (hsound.long key _)

theorem signature_ne (key' : CKey) : signature P E txTo nIn key script ≠ E.getPubKey key' := by
  intro h
  have hfirst := (bounds_of_strict (hsound.strict key (signatureHash P script txTo nIn (Int32.ofNat SIGHASH_ALL)))).2.2
  rw [← signature, h] at hfirst
  exact (pubkey_of_compressed (hsound.pubkey key')).2.2 hfirst

theorem signature_encoding :
    checkSignatureEncoding P STANDARD_SCRIPT_VERIFY_FLAGS (signature P E txTo nIn key script) = none := by
  have hstrict := hsound.strict key (signatureHash P script txTo nIn (Int32.ofNat SIGHASH_ALL))
  have hlow : isLowDERSignature P (signature P E txTo nIn key script) = none := by
    rw [isLowDERSignature, signature, if_neg (not_not.mpr hstrict), dropLast_concat, hsound.lowS]
    rfl
  have htype : isDefinedHashtypeSignature (signature P E txTo nIn key script) = true := by
    rw [isDefinedHashtypeSignature, signature, getLast?_concat]
    rfl
  rw [checkSignatureEncoding, hlow, htype, signature, hstrict]
  simp

theorem pubkey_encoding :
    checkPubKeyEncoding STANDARD_SCRIPT_VERIFY_FLAGS (E.getPubKey key) = none := by
  rw [checkPubKeyEncoding, hsound.pubkey]
  simp

theorem signature_valid :
    checkSig P E txTo nIn (signature P E txTo nIn key script) (E.getPubKey key) script = true := by
  obtain ⟨hkey, hne, -⟩ := pubkey_of_compressed (hsound.pubkey key)
  rw [Signing.checkSig, hkey, signature, getLast?_concat, dropLast_concat]
  rw [if_neg (by simp [isValid, hne])]
  exact hsound.verify key _

end

section

variable {P : Primitives} {E : Curve} {keystore : CKeyStore} {txTo : CMutableTransaction} {nIn : Nat}
  {script : CScript} {vSolutions : List Bytes}

def minimalPushes (script : CScript) : Bool :=
  (operations (decode script)).all fun o =>
    !decide (o.opcode ≤ OP_PUSHDATA4) || checkMinimalPush o.vch o.opcode

theorem pushOk_standard :
    PushOk STANDARD_SCRIPT_VERIFY_FLAGS o ↔ checkMinimalPush o.vch o.opcode = true :=
  ⟨fun h => h (by decide), fun h _ => h⟩

theorem minimalPushes_iff (h : decode script = ofOps ops) :
    minimalPushes script = true ↔
      ∀ o ∈ ops, o.opcode ≤ OP_PUSHDATA4 → PushOk STANDARD_SCRIPT_VERIFY_FLAGS o := by
  simp only [minimalPushes, h, operations_ofOps, all_eq_true, Bool.or_eq_true, Bool.not_eq_true',
    decide_eq_false_iff_not, pushOk_standard, imp_iff_not_or]

def Pushable (vch : Bytes) : Prop :=
  vch.length ≤ MAX_SCRIPT_ELEMENT_SIZE ∧ checkMinimalPush vch (pushOpcode vch) = true

theorem pushable_of_length (h : 2 ≤ vch.length) (hle : vch.length ≤ MAX_SCRIPT_ELEMENT_SIZE) :
    Pushable vch := ⟨hle, checkMinimalPush_pushOpcode h⟩

theorem pushable_nil : Pushable [] := ⟨Nat.zero_le _, by decide⟩

structure Signs (P : Primitives) (checker : BaseSignatureChecker) (script : CScript)
    (values : List Bytes) : Prop where
  few : values.length ≤ 17
  pushable : ∀ vch ∈ values, Pushable vch
  leaves : ∀ rest, Leaves P STANDARD_SCRIPT_VERIFY_FLAGS checker script values.reverse rest ↔
    minimalPushes script = true ∧ rest = []

abbrev signer (P : Primitives) (E : Curve) (keystore : CKeyStore) (txTo : CMutableTransaction)
    (nIn : Nat) : BaseSignatureCreator :=
  transactionSignatureCreator P E keystore txTo nIn (Int32.ofNat SIGHASH_ALL)

theorem sign1_eq (h : keystore.getKey address = some key) (script : CScript) :
    sign1 (signer P E keystore txTo nIn) address script =
      some (pushData (signature P E txTo nIn key script)) := by
  simp only [sign1, transactionSignatureCreator, h, Option.map_some]
  rfl

theorem foldl_signRound {creator : BaseSignatureCreator} {sigOf : Bytes → Bytes} {keys : List Bytes}
    (h : ∀ pubkey ∈ keys, sign1 creator (getID P (toPubKey pubkey)) script = some (pushData (sigOf pubkey)))
    (m i : Nat) (pushed : CScript) :
    keys.foldl (signRound P creator script m) (i, pushed) =
      (i + min (m - i) keys.length, pushed ++ pushes ((keys.take (m - i)).map sigOf)) := by
  induction keys generalizing i pushed with
  | nil => simp [pushes]
  | cons pubkey keys ih =>
    obtain ⟨hpubkey, hkeys⟩ := forall_mem_cons.mp h
    rw [foldl_cons, signRound]
    by_cases hlt : i < m
    · obtain ⟨k, hk⟩ : ∃ k, m - i = k + 1 := ⟨m - i - 1, by omega⟩
      have hk' : m - (i + 1) = k := by omega
      rw [if_pos hlt, hpubkey, ih hkeys, hk, hk', take_succ_cons, map_cons, pushes_cons,
        length_cons, append_assoc]
      simp only [Prod.mk.injEq, and_true]
      omega
    · have hk : m - i = 0 := by omega
      rw [if_neg hlt, ih hkeys, hk]
      simp

variable (hsound : Sound P E)

include hsound

theorem pushable_signature (key : CKey) : Pushable (signature P E txTo nIn key script) := by
  obtain ⟨hlong, hshort⟩ := signature_bounds hsound txTo nIn key script
  refine pushable_of_length (by omega) ?_
  simp only [MAX_SCRIPT_ELEMENT_SIZE]
  omega

theorem pushable_pubkey (key : CKey) : Pushable (E.getPubKey key) := by
  have hlen := length_of_compressed (hsound.pubkey key)
  refine pushable_of_length (by omega) ?_
  simp only [MAX_SCRIPT_ELEMENT_SIZE]
  omega

theorem signature_kept (key : CKey) (h : ∀ o ∈ operations (decode script), o.opcode ≤ OP_PUSHDATA4 →
      o.vch.length = 20 ∨ ∃ key, o.vch = E.getPubKey key) :
    findAndDelete script (pushData (signature P E txTo nIn key script)) = script := by
  obtain ⟨hlong, hshort⟩ := signature_bounds hsound txTo nIn key script
  refine findAndDelete_eq (by omega) ?_
  rintro ⟨o, ho, hpush, hvch⟩
  obtain hlen | ⟨key', hkey⟩ := h o ho hpush
  · rw [hvch] at hlen
    omega
  · exact signature_ne hsound key' (hvch.symm.trans hkey)

theorem signs_pubkey (hcode : decode script = ofOps [o, checksig]) (ho : isKeySize o.vch = true)
    (hchecksig : IsOp OP_CHECKSIG checksig) (hkey : o.vch = E.getPubKey key) :
    Signs P (transactionSignatureChecker P E txTo nIn) script [signature P E txTo nIn key script] := by
  have hpush := opcode_le_of_vch hcode mem_cons_self (ne_nil_of_isKeySize ho)
  have hnot : ¬checksig.opcode ≤ OP_PUSHDATA4 := by
    rw [hchecksig.1]
    decide
  have hminimal : minimalPushes script = true ↔ PushOk STANDARD_SCRIPT_VERIFY_FLAGS o := by
    rw [minimalPushes_iff hcode]
    simp [hpush, hnot]
  have hkept : findAndDelete script (pushData (signature P E txTo nIn key script)) = script := by
    refine signature_kept hsound key fun o' ho' hpush' => .inr ?_
    rw [hcode, operations_ofOps] at ho'
    simp only [mem_cons, not_mem_nil, or_false] at ho'
    obtain rfl | rfl := ho'
    · exact ⟨key, hkey⟩
    · exact absurd hpush' hnot
  refine ⟨Nat.le_of_ble_eq_true rfl, forall_mem_singleton.mpr (pushable_signature hsound key),
    fun rest => ?_⟩
  rw [reverse_singleton, leaves_pubkey hcode ho hchecksig, hminimal]
  constructor
  · rintro ⟨hok, -, vchSig, hst, -⟩
    exact ⟨hok, (cons.inj hst).2.symm⟩
  · rintro ⟨hok, rfl⟩
    refine ⟨hok, by simp, _, rfl, signature_encoding hsound, ?_, ?_⟩
    · rw [hkey]
      exact pubkey_encoding hsound
    · rw [hkept, hkey]
      exact signature_valid hsound

theorem signs_pubkeyhash (s : PubkeyHash script) (hid : (P.hash160 (E.getPubKey key)).1 = s.hash.vch) :
    Signs P (transactionSignatureChecker P E txTo nIn) script
      [signature P E txTo nIn key script, E.getPubKey key] := by
  have hpush : s.hash.opcode ≤ OP_PUSHDATA4 := by
    refine opcode_le_of_vch s.code (by simp) fun h => ?_
    have hsize := s.size
    rw [h] at hsize
    cases hsize
  have hops : ∀ o ∈ [s.dup, s.hash160, s.hash, s.equalverify, s.checksig],
      o.opcode ≤ OP_PUSHDATA4 → o = s.hash := by
    intro o ho hop
    simp only [mem_cons, not_mem_nil, or_false] at ho
    obtain rfl | rfl | rfl | rfl | rfl := ho
    · exact absurd (s.isDup.1 ▸ hop) (by decide)
    · exact absurd (s.isHash160.1 ▸ hop) (by decide)
    · rfl
    · exact absurd (s.isEqualverify.1 ▸ hop) (by decide)
    · exact absurd (s.isChecksig.1 ▸ hop) (by decide)
  have hminimal : minimalPushes script = true ↔ PushOk STANDARD_SCRIPT_VERIFY_FLAGS s.hash := by
    rw [minimalPushes_iff s.code]
    refine ⟨fun h => h s.hash (by simp) hpush, fun h o ho hop => ?_⟩
    rw [hops o ho hop]
    exact h
  have hkept : findAndDelete script (pushData (signature P E txTo nIn key script)) = script := by
    refine signature_kept hsound key fun o ho hop => .inl ?_
    rw [s.code, operations_ofOps] at ho
    rw [hops o ho hop]
    exact s.size
  have hpubkey : Pushable (E.getPubKey key) := pushable_pubkey hsound key
  refine ⟨Nat.le_of_ble_eq_true rfl, ?_, fun rest => ?_⟩
  · exact forall_mem_cons.mpr ⟨pushable_signature hsound key, forall_mem_singleton.mpr hpubkey⟩
  · have hreverse : [signature P E txTo nIn key script, E.getPubKey key].reverse =
        [E.getPubKey key, signature P E txTo nIn key script] := rfl
    rw [hreverse, leaves_pubkeyhash s, hminimal]
    constructor
    · rintro ⟨hok, -, vchPubKey, vchSig, hst, -⟩
      cases hst
      exact ⟨hok, rfl⟩
    · rintro ⟨hok, rfl⟩
      refine ⟨hok, by simp, _, _, rfl, hid, signature_encoding hsound, pubkey_encoding hsound, ?_⟩
      rw [hkept]
      exact signature_valid hsound

theorem signs_multisig (s : Multisig script) (hsigs : ∀ vch ∈ s.keys.map Operation.vch,
      ∃ key, vch = E.getPubKey key ∧ sigOf vch = signature P E txTo nIn key script) :
    Signs P (transactionSignatureChecker P E txTo nIn) script
      ([] :: ((s.keys.map Operation.vch).take s.m).map sigOf) := by
  have hle := s.le
  have h16 := decodeOP_N_le s.decodeN
  have hlen : (((s.keys.map Operation.vch).take s.m).map sigOf).reverse.length = s.m := by
    rw [length_reverse, length_map, length_take, length_map, s.count]
    omega
  have hsig : ∀ sig ∈ ((s.keys.map Operation.vch).take s.m).map sigOf,
      ∃ key, sig = signature P E txTo nIn key script := by
    intro sig hsig
    obtain ⟨vch, hvch, rfl⟩ := mem_map.mp hsig
    obtain ⟨key, -, heq⟩ := hsigs vch (mem_of_mem_take hvch)
    exact ⟨key, heq⟩
  have hsig' : ∀ sig ∈ (((s.keys.map Operation.vch).take s.m).map sigOf).reverse,
      ∃ key, sig = signature P E txTo nIn key script := fun sig h => hsig sig (mem_reverse.mp h)
  have hpushed {o : Operation} (ho : o ∈ s.opM :: s.keys ++ [s.opN, s.checkmultisig])
      (hop : o.opcode ≤ OP_PUSHDATA4) : o ∈ s.keys :=
    mem_keys_of_push s ho hop
  have hminimal : minimalPushes script = true ↔ ∀ k ∈ s.keys, PushOk STANDARD_SCRIPT_VERIFY_FLAGS k := by
    rw [minimalPushes_iff s.code]
    refine ⟨fun h k hk => ?_, fun h o ho hop => h o (hpushed ho hop)⟩
    have hmem : k ∈ s.opM :: s.keys ++ [s.opN, s.checkmultisig] := by simp [hk]
    exact h k hmem (opcode_le_of_vch s.code hmem (ne_nil_of_isKeySize (s.keySize k hk)))
  have hdelete : ∀ sig ∈ (((s.keys.map Operation.vch).take s.m).map sigOf).reverse,
      findAndDelete script (pushData sig) = script := by
    intro sig h
    obtain ⟨key, rfl⟩ := hsig' sig h
    refine signature_kept hsound key fun o ho hop => .inr ?_
    rw [s.code, operations_ofOps] at ho
    obtain ⟨key', hkey', -⟩ := hsigs o.vch (mem_map_of_mem (hpushed ho hop))
    exact ⟨key', hkey'⟩
  have hkeysOk : ∀ k ∈ s.keys, checkPubKeyEncoding STANDARD_SCRIPT_VERIFY_FLAGS k.vch = none := by
    intro k hk
    obtain ⟨key, hkey, -⟩ := hsigs k.vch (mem_map_of_mem hk)
    rw [hkey]
    exact pubkey_encoding hsound
  have hsigsOk : ∀ sig ∈ (((s.keys.map Operation.vch).take s.m).map sigOf).reverse,
      checkSignatureEncoding P STANDARD_SCRIPT_VERIFY_FLAGS sig = none := by
    intro sig h
    obtain ⟨key, rfl⟩ := hsig' sig h
    exact signature_encoding hsound
  have hfits : greedy (fun sig key => checkSig P E txTo nIn sig key script)
      (((s.keys.map Operation.vch).take s.m).map sigOf) (s.keys.map Operation.vch) = true := by
    refine greedy_iff.mpr (sublistForall₂_iff.mpr ⟨_, ?_, take_sublist s.m _⟩)
    rw [forall₂_map_left_iff, forall₂_same]
    intro vch hvch
    obtain ⟨key, hkey, heq⟩ := hsigs vch (mem_of_mem_take hvch)
    rw [heq, hkey]
    exact signature_valid hsound
  refine ⟨?_, ?_, fun rest => ?_⟩
  · rw [length_cons, ← length_reverse, hlen]
    omega
  · refine forall_mem_cons.mpr ⟨pushable_nil, fun sig h => ?_⟩
    obtain ⟨key, rfl⟩ := hsig sig h
    exact pushable_signature hsound key
  · rw [reverse_cons, leaves_multisig s hlen hdelete hkeysOk hsigsOk (fun _ => rfl), reverse_reverse, hminimal]
    refine and_congr_right fun _ => ⟨fun h => h.2.1.symm, ?_⟩
    rintro rfl
    refine ⟨?_, rfl, hfits⟩
    rw [length_nil]
    omega

end

section

variable {P : Primitives} {E : Curve} {keystore : CKeyStore} {txTo : CMutableTransaction} {nIn : Nat}
  {script : CScript}

theorem watched_ne : watched P keystore script ≠ ISMINE_SPENDABLE := by
  rw [watched]
  split_ifs <;> nofun

theorem spendableIf_eq : spendableIf P keystore c script = ISMINE_SPENDABLE ↔ c = true := by
  cases c with
  | false => exact ⟨fun h => absurd h watched_ne, nofun⟩
  | true => exact ⟨fun _ => rfl, fun _ => rfl⟩

section

variable {creator : BaseSignatureCreator} {vch : Bytes} {pushed : CScript}

theorem signStep_pubkey (hsolver : solver script = (true, .pubkey, [vch]))
    (h : sign1 creator (getID P (toPubKey vch)) script = some pushed) :
    signStep P creator script = (true, pushed, .pubkey) := by
  rw [signStep, hsolver]
  dsimp only [headD_cons]
  rw [h]

theorem signStep_pubkeyhash (hsolver : solver script = (true, .pubkeyhash, [vch]))
    (h : sign1 creator vch script = some pushed)
    (hpubkey : creator.keystore.getPubKey vch = some pubkey) :
    signStep P creator script = (true, pushed ++ pushData pubkey, .pubkeyhash) := by
  rw [signStep, hsolver]
  dsimp only [headD_cons]
  rw [h, hpubkey]
  rfl

theorem signStep_scripthash (hspk : isPayToScriptHash script = true) :
    signStep P creator script = match redeemScript creator.keystore script with
      | none => (false, [], .scripthash)
      | some sub => (true, sub, .scripthash) := by
  rw [signStep, solver, if_pos hspk, redeemScript, if_pos hspk]
  rfl

theorem signStep_multisig (hsolver : solver script = (true, .multisig, vSolutions))
    (h : ∀ pubkey ∈ pubkeys vSolutions,
      sign1 creator (getID P (toPubKey pubkey)) script = some (pushData (sigOf pubkey)))
    (hle : required vSolutions ≤ (pubkeys vSolutions).length) :
    signStep P creator script =
      (true, pushes ([] :: ((pubkeys vSolutions).take (required vSolutions)).map sigOf), .multisig) := by
  have hsigned : signN P creator vSolutions script [0] =
      (true, pushes ([] :: ((pubkeys vSolutions).take (required vSolutions)).map sigOf)) := by
    rw [signN, foldl_signRound h, Nat.sub_zero, zero_add, min_eq_left hle, pushes_cons]
    dsimp only
    rw [beq_self_eq_true]
    rfl
  rw [signStep, hsolver]
  dsimp only
  rw [hsigned]

end

variable (hmatch : Matching P E keystore) (hsound : Sound P E)

include hmatch hsound

theorem exists_sigOf (txTo : CMutableTransaction) (nIn : Nat) (script : CScript) {keys : List Bytes}
    (hhave : ∀ vch ∈ keys, keystore.haveKey (getID P (toPubKey vch)) = true) :
    ∃ sigOf : Bytes → Bytes, ∀ vch ∈ keys,
      sign1 (signer P E keystore txTo nIn) (getID P (toPubKey vch)) script =
          some (pushData (sigOf vch)) ∧
        ∃ key, vch = E.getPubKey key ∧ sigOf vch = signature P E txTo nIn key script := by
  refine ⟨fun vch => signature P E txTo nIn
    ((keystore.getKey (getID P (toPubKey vch))).getD ⟨true, []⟩) script, fun vch hvch => ?_⟩
  obtain ⟨key, hget, hkey⟩ := hmatch.of_pubkey hsound (hhave vch hvch)
  dsimp only
  rw [hget, Option.getD_some]
  exact ⟨sign1_eq hget script, key, hkey, rfl⟩

theorem signStep_of_spendable (txTo : CMutableTransaction) (nIn : Nat)
    (hplain : isPayToScriptHash script = false) {depth : Nat}
    (h : isMine P keystore depth script = some ISMINE_SPENDABLE) :
    ∃ values txType, signStep P (signer P E keystore txTo nIn) script = (true, pushes values, txType) ∧
      txType ≠ .scripthash ∧ 2 ≤ script.length ∧
      Signs P (transactionSignatureChecker P E txTo nIn) script values := by
  cases depth with
  | zero => cases h
  | succ depth =>
    rcases hsolver : solver script with ⟨solved, whichType, vSolutions⟩
    rw [isMine, hsolver] at h
    cases solved with
    | false =>
      split_ifs at h
      · cases h
      · cases h
    | true =>
      cases solver_form hsolver with
      | scripthash hspk =>
        rw [hplain] at hspk
        cases hspk
      | nullData => exact absurd (Option.some.inj h) watched_ne
      | pubkey _ o checksig hcode ho hchecksig =>
        have hhave := spendableIf_eq.mp (Option.some.inj h)
        obtain ⟨key, hget, hkey⟩ := hmatch.of_pubkey hsound hhave
        refine ⟨[signature P E txTo nIn key script], .pubkey, ?_, nofun, length_ops_le hcode,
          signs_pubkey hsound hcode ho hchecksig hkey⟩
        rw [signStep_pubkey hsolver (sign1_eq hget script), pushes_singleton]
      | pubkeyhash _ o =>
        have hhave := spendableIf_eq.mp (Option.some.inj h)
        obtain ⟨key, hget, hpubkey, hid⟩ := hmatch.key _ hhave
        have hlen : 5 ≤ script.length := length_ops_le o.code
        refine ⟨[signature P E txTo nIn key script, E.getPubKey key], .pubkeyhash, ?_, nofun,
          by omega, signs_pubkeyhash hsound o ((hid _).mpr rfl)⟩
        rw [signStep_pubkeyhash hsolver (sign1_eq hget script) hpubkey, pushes_cons,
          pushes_singleton]
      | multisig _ o =>
        have hhave := beq_iff_eq.mp (spendableIf_eq.mp (Option.some.inj h))
        rw [pubkeys_eq, haveKeys, countP_eq_length] at hhave
        obtain ⟨sigOf, hsigOf⟩ := exists_sigOf hmatch hsound txTo nIn script hhave
        have hrequired : required ([.ofNat o.m] :: o.keys.map Operation.vch ++ [[.ofNat o.n]]) = o.m :=
          required_eq (o.le.trans (decodeOP_N_le o.decodeN)) _
        have hsigned : ∀ vch ∈ pubkeys ([.ofNat o.m] :: o.keys.map Operation.vch ++ [[.ofNat o.n]]),
            sign1 (signer P E keystore txTo nIn) (getID P (toPubKey vch)) script =
              some (pushData (sigOf vch)) := by
          rw [pubkeys_eq]
          exact fun vch hvch => (hsigOf vch hvch).1
        have hstep := signStep_multisig hsolver hsigned (by
          rw [hrequired, pubkeys_eq, length_map, o.count]
          exact o.le)
        rw [hrequired, pubkeys_eq] at hstep
        have hlen := length_ops_le o.code
        rw [length_append, length_cons, length_cons] at hlen
        exact ⟨_, .multisig, hstep, nofun, by omega,
          signs_multisig hsound o fun vch hvch => (hsigOf vch hvch).2⟩

end

section

variable {P : Primitives} {checker : BaseSignatureChecker} {creator : BaseSignatureCreator}
  {scriptPubKey script : CScript} {values : List Bytes}

theorem evalScript_signed (hfew : values.length ≤ 19) (hpushable : ∀ vch ∈ values, Pushable vch) :
    evalScript P STANDARD_SCRIPT_VERIFY_FLAGS checker (pushes values) [] = .ok ⟨⟩ values.reverse :=
  evalScript_pushes (fun vch hvch => (hpushable vch hvch).1) (fun _ vch hvch => (hpushable vch hvch).2) hfew

theorem Signs.plain (h : Signs P checker scriptPubKey values)
    (hplain : isPayToScriptHash scriptPubKey = false) :
    verifyScript P STANDARD_SCRIPT_VERIFY_FLAGS checker (pushes values) scriptPubKey = true ↔
      minimalPushes scriptPubKey = true := by
  have heval : evalScript P STANDARD_SCRIPT_VERIFY_FLAGS checker (pushes values) [] = _ :=
    evalScript_signed (h.few.trans (by decide)) h.pushable
  rw [verifyScript_plain (by decide) (by decide) (by simp [hplain])]
  constructor
  · rintro ⟨st, rest, heval', hleaves, -⟩
    rw [heval] at heval'
    cases heval'
    exact ((h.leaves rest).mp hleaves).1
  · intro hminimal
    exact ⟨_, [], heval, (h.leaves []).mpr ⟨hminimal, rfl⟩, fun _ => rfl⟩

theorem Signs.wrapped (h : Signs P checker script values) (hspk : isPayToScriptHash scriptPubKey = true)
    (hpushable : Pushable script) (hhash : (P.hash160 script).1 = (scriptPubKey.drop 2).take 20) :
    verifyScript P STANDARD_SCRIPT_VERIFY_FLAGS checker (pushes values ++ pushData script) scriptPubKey =
      true ↔ minimalPushes script = true := by
  have happend : pushes values ++ pushData script = pushes (values ++ [script]) := by
    rw [pushes_append, pushes_singleton]
  have hfew := h.few
  have hpushables : ∀ vch ∈ values ++ [script], Pushable vch :=
    forall_mem_append.mpr ⟨h.pushable, forall_mem_singleton.mpr hpushable⟩
  have heval : evalScript P STANDARD_SCRIPT_VERIFY_FLAGS checker (pushes (values ++ [script])) [] =
      .ok ⟨⟩ (script :: values.reverse) := by
    have hlen : (values ++ [script]).length ≤ 19 := by
      rw [length_append, length_singleton]
      omega
    rw [evalScript_signed hlen hpushables, reverse_append]
    rfl
  rw [happend, verifyScript_scripthash (by decide) (by decide) (by decide) hspk]
  constructor
  · rintro ⟨redeem, st, rest, heval', -, -, -, hleaves, -⟩
    rw [heval] at heval'
    cases heval'
    exact ((h.leaves rest).mp hleaves).1
  · intro hminimal
    refine ⟨script, values.reverse, [], heval, isPushOnly_pushes _ fun vch hvch => ?_, ?_, hhash,
      (h.leaves []).mpr ⟨hminimal, rfl⟩, fun _ => rfl⟩
    · exact (hpushables vch hvch).1.trans_lt (by decide)
    · rw [length_reverse]
      omega

theorem produceSignature_plain (h : signStep P creator scriptPubKey = (true, scriptSig, txType))
    (hne : txType ≠ .scripthash) :
    (produceSignature P creator scriptPubKey).1 = verify P creator scriptSig scriptPubKey := by
  rw [produceSignature, h]
  cases txType with
  | scripthash => exact absurd rfl hne
  | nonstandard | pubkey | pubkeyhash | multisig | nullData => rfl

theorem produceSignature_wrapped (hspk : isPayToScriptHash scriptPubKey = true)
    (hredeem : redeemScript creator.keystore scriptPubKey = some script) {signed : Bool}
    {subSig : CScript} {subType : txnouttype}
    (h : signStep P creator script = (signed, subSig, subType)) :
    (produceSignature P creator scriptPubKey).1 =
      (signed && subType != .scripthash && verify P creator (subSig ++ pushData script) scriptPubKey) := by
  rw [produceSignature, signStep_scripthash hspk, hredeem]
  dsimp only
  rw [h]
  dsimp only
  split_ifs with hsolved
  · rw [hsolved, Bool.true_and]
  · rw [Bool.not_eq_true] at hsolved
    rw [hsolved, Bool.false_and]

theorem produceSignature_nested (hspk : isPayToScriptHash scriptPubKey = true)
    (hredeem : redeemScript creator.keystore scriptPubKey = some script)
    (hscript : isPayToScriptHash script = true) : (produceSignature P creator scriptPubKey).1 = false := by
  obtain ⟨signed, subSig, hstep⟩ :
      ∃ signed subSig, signStep P creator script = (signed, subSig, .scripthash) := by
    rw [signStep_scripthash hscript]
    cases redeemScript creator.keystore script with
    | none => exact ⟨_, _, rfl⟩
    | some sub => exact ⟨_, _, rfl⟩
  rw [produceSignature_wrapped hspk hredeem hstep]
  simp

end

/-- All pushes are minimal, and a redeem script is not a script hash itself. -/
def signable (keystore : CKeyStore) (scriptPubKey : CScript) : Bool :=
  match redeemScript keystore scriptPubKey with
  | none => minimalPushes scriptPubKey
  | some sub => !isPayToScriptHash sub && minimalPushes sub

/-- `IsMine` returns unless redeem scripts lead around in a circle. What it finds spendable is
signed by `ProduceSignature` exactly if the script is signable. -/
theorem isMine_spendable_signed_iff (P : Primitives) (E : Curve) (keystore : CKeyStore)
    (hmatch : Matching P E keystore) (hsound : Sound P E) (scriptPubKey : CScript) :
    ((∃ depth ret, isMine P keystore depth scriptPubKey = some ret) ↔
        ¬Loops (redeemScript keystore) scriptPubKey) ∧
      ∀ depth, isMine P keystore depth scriptPubKey = some ISMINE_SPENDABLE → ∀ txTo nIn,
        ((produceSignature P (signer P E keystore txTo nIn) scriptPubKey).1 = true ↔
          signable keystore scriptPubKey = true) := by
  refine ⟨isMine_returns_iff, fun depth h txTo nIn => ?_⟩
  rw [signable]
  cases depth with
  | zero => cases h
  | succ depth =>
    by_cases hspk : isPayToScriptHash scriptPubKey = true
    · cases hredeem : redeemScript keystore scriptPubKey with
      | none =>
        -- a script hash without its script is not spendable
        rw [isMine_unredeemed hspk hredeem] at h
        exact absurd (Option.some.inj h) watched_ne
      | some sub =>
        dsimp only
        rw [isMine_of_some hredeem] at h
        obtain ⟨ret, hret, hspendable⟩ := Option.map_eq_some_iff.mp h
        obtain rfl := beq_iff_eq.mp (spendableIf_eq.mp hspendable)
        have hredeem' : redeemScript (signer P E keystore txTo nIn).keystore scriptPubKey = some sub :=
          hredeem
        by_cases hsub : isPayToScriptHash sub = true
        · rw [produceSignature_nested hspk hredeem' hsub, hsub]
          exact ⟨nofun, nofun⟩
        · have hplain : isPayToScriptHash sub = false := Bool.eq_false_iff.mpr hsub
          obtain ⟨values, txType, hstep, hne, hlen, hsigns⟩ :=
            signStep_of_spendable hmatch hsound txTo nIn hplain hret
          rw [redeemScript, if_pos hspk] at hredeem
          obtain ⟨hhash, hshort⟩ := hmatch.script _ _ hredeem
          have hverify := hsigns.wrapped hspk (pushable_of_length hlen hshort) hhash
          rw [produceSignature_wrapped hspk hredeem' hstep, Signing.verify, hplain]
          simp only [Bool.true_and, Bool.not_false, Bool.and_eq_true, bne_iff_ne, ne_eq, hne,
            not_false_eq_true, true_and]
          exact hverify
    · have hplain : isPayToScriptHash scriptPubKey = false := Bool.eq_false_iff.mpr hspk
      have hredeem : redeemScript keystore scriptPubKey = none := if_neg hspk
      obtain ⟨values, txType, hstep, hne, -, hsigns⟩ :=
        signStep_of_spendable hmatch hsound txTo nIn hplain h
      rw [hredeem, produceSignature_plain hstep hne, Signing.verify]
      exact hsigns.plain hplain

def payToOneKey : CScript := pushData (samplePubKey 1) ++ [OP_CHECKSIG]

def payToHash (hash : Nat) : CScript := OP_HASH160 :: 0x14 :: beBytes 20 hash ++ [OP_EQUAL]

/-- The `Hash160` of `payToOneKey`. -/
def scriptID : Nat := 0x23b0ad3477f2178bc0b3eed26e4e6316f4e83aa1

/-- The `Hash160` of `payToHash scriptID`. -/
def nestedID : Nat := 0xd8d6c03ba56ecaf0cd8b7bbcd58d0213f5b43eba

def sampleTx : CMutableTransaction where
  nVersion := 1
  vin := [⟨⟨sampleTxid, 0⟩, [], 0xffffffff⟩]
  vout := [⟨100000000, payToOneKey⟩]
  nLockTime := 0

/-- SHA-256 of the public key, of the two scripts and twice of what is signed for `sampleTx`. -/
def tableSha256 (vch : Bytes) : Nat :=
  if vch = samplePubKey 1 then
    0x0f715baf5d4c2ed329785cef29e562f73488c8a2bb9dbc5700b361d54b9b0554
  else if vch = payToOneKey then
    0x1863143c14c5166804bd19203356da136c985678cd4d27a1b8c6329604903262
  else if vch = payToHash scriptID then
    0xb4e521b0ad7682c03d6fa13e60dbe6bd14fa563ec06e54bc7b68d1697177e84d
  else if some vch = hashed payToOneKey sampleTx 0 1 then
    0x5abfd79bf0d9984deae2931d7f4a6309b5044e80151f0125cfb6529e73caae4b
  else if vch = beBytes 32 0x5abfd79bf0d9984deae2931d7f4a6309b5044e80151f0125cfb6529e73caae4b then
    0xb071db373aa44ea5bfdfec39cbea693805271db68058b0d7ee8f78b3f4d7898d
  else 0

def tableRipemd160 (vch : Bytes) : Nat :=
  if vch = beBytes 32 (tableSha256 (samplePubKey 1)) then 0x751e76e8199196d454941c45d1b3a323f1433bd6
  else if vch = beBytes 32 (tableSha256 payToOneKey) then scriptID
  else if vch = beBytes 32 (tableSha256 (payToHash scriptID)) then nestedID else 0

def tableHashes : Primitives where
  ripemd160 vch := ⟨beBytes 20 (tableRipemd160 vch), beBytes_length _ _⟩
  sha1 _ := ⟨replicate 20 0, length_replicate⟩
  sha256 vch := ⟨beBytes 32 (tableSha256 vch), beBytes_length _ _⟩
  checkLowS _ := true

/-- The signature that the secret 1 makes for `sampleTx`. -/
def sampleSig : Bytes :=
  beBytes 71 0x3045022100ebbfbee2ae64c7957fa65a814ec74d92c15994fd36321667022a35940a4639280220198d9486ae2dada875d3eeaa2f71634a7e66e8b56ec29d05e194b74ccc191d4c

def oneKeyCurve : Curve where
  getPubKey _ := samplePubKey 1
  sign _ _ := sampleSig
  verify pubkey _ vchSig := pubkey == samplePubKey 1 && vchSig == sampleSig

def oneKeyStore : CKeyStore where
  haveKey address := address == sampleID 1
  getKey address := if address = sampleID 1 then some (sampleKey 1) else none
  getPubKey address := if address = sampleID 1 then some (samplePubKey 1) else none
  getCScript hash :=
    if hash = beBytes 20 scriptID then some payToOneKey
    else if hash = beBytes 20 nestedID then some (payToHash scriptID)
    else none
  haveWatchOnly _ := false

theorem hash160_tableHashes (vch : Bytes) :
    (tableHashes.hash160 vch).1 = sampleID 1 ↔ vch = samplePubKey 1 := by
  change beBytes 20 (tableRipemd160 (beBytes 32 (tableSha256 vch))) = _ ↔ _
  constructor
  · intro h
    by_contra hne
    revert h
    rw [tableSha256, if_neg hne]
    split_ifs <;> decide +kernel
  · rintro rfl
    decide +kernel

theorem matching_oneKeyStore : Matching tableHashes oneKeyCurve oneKeyStore where
  key address h := by
    obtain rfl := beq_iff_eq.mp h
    exact ⟨sampleKey 1, by decide, by decide, hash160_tableHashes⟩
  script hash script h := by
    change (if hash = beBytes 20 scriptID then _ else _) = _ at h
    split_ifs at h with h2 h3
    · subst h2
      cases h
      decide +kernel
    · subst h3
      cases h
      decide +kernel

theorem sound_oneKeyCurve : Sound tableHashes oneKeyCurve := by
  have hpubkey : isCompressedOrUncompressedPubKey (samplePubKey 1) = true := by decide +kernel
  have hstrict : isValidSignatureEncoding (sampleSig ++ [.ofNat SIGHASH_ALL]) = some true := by
    decide +kernel
  have hverify : (samplePubKey 1 == samplePubKey 1 && sampleSig == sampleSig) = true := by
    decide +kernel
  have hlong : 20 ≤ sampleSig.length := by decide +kernel
  exact ⟨fun _ => hpubkey, fun _ _ => hverify, fun _ _ => hstrict, fun _ _ => rfl, fun _ _ => hlong⟩

theorem isMine_spendable_signed_iff_oneKey :
    isMine tableHashes oneKeyStore 2 (payToHash scriptID) = some ISMINE_SPENDABLE ∧
      (produceSignature tableHashes (signer tableHashes oneKeyCurve oneKeyStore sampleTx 0)
        (payToHash scriptID)).1 = true := by
  have hspendable : isMine tableHashes oneKeyStore 2 (payToHash scriptID) = some ISMINE_SPENDABLE := by
    decide +kernel
  refine ⟨hspendable, ((isMine_spendable_signed_iff tableHashes oneKeyCurve oneKeyStore
    matching_oneKeyStore sound_oneKeyCurve (payToHash scriptID)).2 2 hspendable sampleTx 0).mpr ?_⟩
  decide +kernel

/-- The hash of a script hash counts as spendable, but no signature is produced for it. -/
theorem nested_scripthash_unsigned :
    Matching tableHashes oneKeyCurve oneKeyStore ∧ Sound tableHashes oneKeyCurve ∧
      isMine tableHashes oneKeyStore 3 (payToHash nestedID) = some ISMINE_SPENDABLE ∧
      (produceSignature tableHashes (signer tableHashes oneKeyCurve oneKeyStore sampleTx 0)
        (payToHash nestedID)).1 = false :=
  ⟨matching_oneKeyStore, sound_oneKeyCurve, by decide +kernel, by decide +kernel⟩

end Utsuite.IsMine
