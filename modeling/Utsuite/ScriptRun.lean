import Utsuite.OpcodeRun

namespace Utsuite.ScriptRun

open ByteWords Transaction Script Interpreter Hoare GreedyMatch Standard ScriptBytes OpcodeRun List
open ScriptSign (pushData)

section

variable (P : Primitives) (flags : BitVec 32) (checker : BaseSignatureChecker)

def Leaves (script : CScript) (st rest : List Bytes) : Prop :=
  ∃ vch, evalScript P flags checker script st = .ok ⟨⟩ (vch :: rest) ∧ castToBool vch = true

def PushOk (o : Operation) : Prop :=
  has flags .MINIMALDATA = true → checkMinimalPush o.vch o.opcode = true

variable {P flags checker} {script : CScript} {st rest : List Bytes}

theorem evalScript_ok :
    evalScript P flags checker script st = .ok ⟨⟩ st' ↔
      script.length ≤ MAX_SCRIPT_SIZE ∧
      ∃ t, evalCode P flags checker (decode script) ⟨st, [], [], 0, script⟩ = .ok ⟨⟩ t ∧
        t.vfExec = [] ∧ t.stack = st' := by
  have hbody (t : Machine) :
      evalBody P flags checker script (Machine.start st script) = .ok ⟨⟩ t ↔
        script.length ≤ MAX_SCRIPT_SIZE ∧
        evalCode P flags checker (decode script) ⟨st, [], [], 0, script⟩ = .ok ⟨⟩ t ∧
          t.vfExec = [] := by
    rw [evalBody, bind_failIf_ok, not_lt, bind_eq_ok_iff]
    refine and_congr_right fun _ => ⟨?_, fun ⟨h, hexec⟩ => ⟨⟨⟩, t, h, ?_⟩⟩
    · rintro ⟨_, s', h, hend⟩
      rw [get_bind_apply] at hend
      by_cases hexec : s'.vfExec = []
      · rw [failIf_neg (by simp [hexec])] at hend
        cases hend
        exact ⟨h, hexec⟩
      · rw [failIf_pos (by simpa using hexec)] at hend
        cases hend
    · rw [get_bind_apply, failIf_neg (by simp [hexec])]
  rw [evalScript]
  constructor
  · intro h
    split at h
    · next t ht =>
        cases h
        obtain ⟨hsize, hcode, hexec⟩ := (hbody t).mp ht
        exact ⟨hsize, t, hcode, hexec, rfl⟩
    · cases h
  · rintro ⟨hsize, t, hcode, hexec, rfl⟩
    rw [(hbody t).mpr ⟨hsize, hcode, hexec⟩]

theorem evalCode_pushes (hlen : ∀ b ∈ values, b.length ≤ MAX_SCRIPT_ELEMENT_SIZE)
    (hmin : has flags .MINIMALDATA = true → ∀ b ∈ values, checkMinimalPush b (pushOpcode b) = true)
    (hroom : values.length + st.length ≤ 1000) :
    evalCode P flags checker (decode (pushes values)) ⟨st, [], [], n, code⟩ =
      .ok ⟨⟩ ⟨values.reverse ++ st, [], [], n, code⟩ := by
  induction values generalizing st with
  | nil => rfl
  | cons b values ih =>
    obtain ⟨hb, hvalues⟩ := forall_mem_cons.mp hlen
    rw [length_cons] at hroom
    have hshort : b.length < 2 ^ 32 := lt_of_le_of_lt hb (by decide)
    rw [pushes_cons, decode_pushData b _ hshort, evalCode_op]
    refine ⟨⟨b :: st, [], [], n, code⟩, ?_, ?_⟩
    · refine (step_push (pushOpcode_le b)).mpr ⟨hb, fun h => ?_, by omega, rfl⟩
      exact hmin h b mem_cons_self
    · rw [reverse_cons, append_assoc]
      refine ih hvalues (fun h b' hb' => hmin h b' (mem_cons_of_mem _ hb')) ?_
      rw [length_cons]
      omega

theorem evalScript_pushes_fitting (hlen : ∀ b ∈ values, b.length ≤ MAX_SCRIPT_ELEMENT_SIZE)
    (hmin : has flags .MINIMALDATA = true → ∀ b ∈ values, checkMinimalPush b (pushOpcode b) = true)
    (hsize : (pushes values).length ≤ MAX_SCRIPT_SIZE) (hroom : values.length ≤ 1000) :
    evalScript P flags checker (pushes values) [] = .ok ⟨⟩ values.reverse := by
  refine evalScript_ok.mpr ⟨hsize, _, evalCode_pushes hlen hmin ?_, rfl, ?_⟩
  · exact hroom
  · exact append_nil _

theorem pushes_fits (hlen : ∀ b ∈ values, b.length ≤ MAX_SCRIPT_ELEMENT_SIZE) (hfew : values.length ≤ 19) :
    (pushes values).length ≤ MAX_SCRIPT_SIZE := by
  have hsize := length_pushes_le values hlen
  simp only [MAX_SCRIPT_SIZE]
  omega

theorem evalScript_pushes (hlen : ∀ b ∈ values, b.length ≤ MAX_SCRIPT_ELEMENT_SIZE)
    (hmin : has flags .MINIMALDATA = true → ∀ b ∈ values, checkMinimalPush b (pushOpcode b) = true)
    (hfew : values.length ≤ 19) :
    evalScript P flags checker (pushes values) [] = .ok ⟨⟩ values.reverse :=
  evalScript_pushes_fitting hlen hmin (pushes_fits hlen hfew) (by omega)

theorem castToBool_boolVch (b : Bool) : castToBool (boolVch b) = b := by
  cases b <;> rfl

theorem leaves_iff (hsize : script.length ≤ MAX_SCRIPT_SIZE) (hcode : decode script = code) :
    Leaves P flags checker script st rest ↔
      ∃ t, evalCode P flags checker code ⟨st, [], [], 0, script⟩ = .ok ⟨⟩ t ∧ t.vfExec = [] ∧
        ∃ vch, t.stack = vch :: rest ∧ castToBool vch = true := by
  rw [← hcode]
  constructor
  · rintro ⟨vch, heval, htrue⟩
    obtain ⟨-, t, ht, hexec, hstack⟩ := evalScript_ok.mp heval
    exact ⟨t, ht, hexec, vch, hstack, htrue⟩
  · rintro ⟨t, ht, hexec, vch, hstack, htrue⟩
    exact ⟨vch, evalScript_ok.mpr ⟨hsize, t, ht, hexec, hstack⟩, htrue⟩

theorem step_isOp (ho : IsOp op o) (hop : OP_16 < op ∧ op ∉ disabled)
    (hexec : ∀ o, o.opcode = op → execute P flags checker true o = m) :
    step P flags checker o ⟨st, [], [], n, code⟩ = .ok ⟨⟩ t ↔
      n < MAX_OPS_PER_SCRIPT ∧ m ⟨st, [], [], n + 1, code⟩ = .ok ⟨⟩ t ∧
      t.stack.length + t.altstack.length ≤ 1000 := by
  obtain ⟨hopcode, hvch⟩ := ho
  rw [step_execute (hopcode ▸ hop.1) (hopcode ▸ hop.2) hvch, hexec o hopcode]

section

variable {o : Operation} {n : Nat} {code : CScript} {t : Machine} (hn : n < MAX_OPS_PER_SCRIPT)

include hn

theorem step_dup (ho : IsOp OP_DUP o) :
    step P flags checker o ⟨st, [], [], n, code⟩ = .ok ⟨⟩ t ↔
      st.length < 1000 ∧ ∃ vch rest, st = vch :: rest ∧
        t = ⟨vch :: vch :: rest, [], [], n + 1, code⟩ := by
  rw [step_isOp (m := dup) ho (by decide) fun _ h => by rw [execute, h]; rfl, dup_ok]
  constructor
  · rintro ⟨-, ⟨vch, rest, rfl, rfl⟩, hroom⟩
    exact ⟨hroom, vch, rest, rfl, rfl⟩
  · rintro ⟨hroom, vch, rest, rfl, rfl⟩
    exact ⟨hn, ⟨vch, rest, rfl, rfl⟩, hroom⟩

theorem step_hash160 (ho : IsOp OP_HASH160 o) :
    step P flags checker o ⟨st, [], [], n, code⟩ = .ok ⟨⟩ t ↔
      st.length ≤ 1000 ∧ ∃ vch rest, st = vch :: rest ∧
        t = ⟨(P.hash160 vch).1 :: rest, [], [], n + 1, code⟩ := by
  rw [step_isOp (m := hash P OP_HASH160) ho (by decide) fun _ h => by rw [execute, h]; rfl, hash160_ok]
  constructor
  · rintro ⟨-, ⟨vch, rest, rfl, rfl⟩, hroom⟩
    exact ⟨hroom, vch, rest, rfl, rfl⟩
  · rintro ⟨hroom, vch, rest, rfl, rfl⟩
    exact ⟨hn, ⟨vch, rest, rfl, rfl⟩, hroom⟩

theorem step_equal (ho : IsOp OP_EQUAL o) (hroom : st.length ≤ 1000) :
    step P flags checker o ⟨st, [], [], n, code⟩ = .ok ⟨⟩ t ↔
      ∃ vch1 vch2 rest, st = vch2 :: vch1 :: rest ∧
        t = ⟨boolVch (vch1 == vch2) :: rest, [], [], n + 1, code⟩ := by
  rw [step_isOp (m := equal false) ho (by decide) fun _ h => by rw [execute, h]; rfl, equal_ok]
  refine ⟨fun h => h.2.1, ?_⟩
  rintro ⟨vch1, vch2, rest, rfl, rfl⟩
  exact ⟨hn, ⟨vch1, vch2, rest, rfl, rfl⟩, Nat.le_of_succ_le hroom⟩

theorem step_equalVerify (ho : IsOp OP_EQUALVERIFY o) (hroom : st.length ≤ 1000) :
    step P flags checker o ⟨st, [], [], n, code⟩ = .ok ⟨⟩ t ↔
      ∃ vch rest, st = vch :: vch :: rest ∧ t = ⟨rest, [], [], n + 1, code⟩ := by
  rw [step_isOp (m := equal true) ho (by decide) fun _ h => by rw [execute, h]; rfl, equalVerify_ok]
  refine ⟨fun h => h.2.1, ?_⟩
  rintro ⟨vch, rest, rfl, rfl⟩
  exact ⟨hn, ⟨vch, rest, rfl, rfl⟩, Nat.le_of_succ_le (Nat.le_of_succ_le hroom)⟩

theorem step_checkSig (ho : IsOp OP_CHECKSIG o) (hroom : st.length ≤ 1000) :
    step P flags checker o ⟨st, [], [], n, code⟩ = .ok ⟨⟩ t ↔
      ∃ vchPubKey vchSig rest, st = vchPubKey :: vchSig :: rest ∧
        checkSignatureEncoding P flags vchSig = none ∧ checkPubKeyEncoding flags vchPubKey = none ∧
        t = ⟨boolVch (checker.checkSig vchSig vchPubKey (findAndDelete code (pushData vchSig))) :: rest,
          [], [], n + 1, code⟩ := by
  rw [step_isOp (m := checkSig P flags checker false) ho (by decide) fun _ h => by rw [execute, h]; rfl, checkSig_ok]
  refine ⟨fun h => h.2.1, ?_⟩
  rintro ⟨vchPubKey, vchSig, rest, rfl, hsig, hkey, rfl⟩
  exact ⟨hn, ⟨_, _, _, rfl, hsig, hkey, rfl⟩, Nat.le_of_succ_le hroom⟩

end

theorem leaves_pubkey (hcode : decode script = ofOps [key, checksig])
    (hkey : isKeySize key.vch = true) (hchecksig : IsOp OP_CHECKSIG checksig) :
    Leaves P flags checker script st rest ↔
      PushOk flags key ∧ st.length < 1000 ∧ ∃ vchSig, st = vchSig :: rest ∧
        checkSignatureEncoding P flags vchSig = none ∧ checkPubKeyEncoding flags key.vch = none ∧
        checker.checkSig vchSig key.vch (findAndDelete script (pushData vchSig)) = true := by
  have hkeySize := isKeySize_iff.mp hkey
  have hpush := opcode_le_of_vch hcode mem_cons_self (ne_nil_of_isKeySize hkey)
  have hsize : script.length ≤ MAX_SCRIPT_SIZE := by
    refine (length_le_of_ofOps hcode ?_).trans (Nat.le_of_ble_eq_true rfl)
    simp [hkeySize.2, hchecksig.2]
  rw [leaves_iff hsize hcode, ofOps_cons, ofOps_cons]
  constructor
  · rintro ⟨t, heval, -, vch, hstack, htrue⟩
    obtain ⟨s₁, hstep₁, heval₁⟩ := evalCode_op.mp heval
    obtain ⟨-, hmin, hroom, rfl⟩ := (step_push hpush).mp hstep₁
    obtain ⟨s₂, hstep₂, heval₂⟩ := evalCode_op.mp heval₁
    have hroom' : (key.vch :: st).length ≤ 1000 := hroom
    obtain ⟨_, vchSig, rest', hst, hsig, hkeyOk, rfl⟩ :=
      (step_checkSig (by decide) hchecksig hroom').mp hstep₂
    obtain ⟨rfl, rfl⟩ := cons.inj hst
    cases heval₂
    cases hstack
    rw [castToBool_boolVch] at htrue
    exact ⟨hmin, hroom, vchSig, rfl, hsig, hkeyOk, htrue⟩
  · rintro ⟨hmin, hroom, vchSig, rfl, hsig, hkeyOk, htrue⟩
    have hroom' : (key.vch :: vchSig :: rest).length ≤ 1000 := hroom
    refine ⟨_, evalCode_op.mpr ⟨_, (step_push hpush).mpr ⟨?_, hmin, hroom, rfl⟩, evalCode_op.mpr
      ⟨_, (step_checkSig (by decide) hchecksig hroom').mpr
        ⟨_, _, _, rfl, hsig, hkeyOk, rfl⟩, rfl⟩⟩, rfl, _, rfl, ?_⟩
    · simp only [MAX_SCRIPT_ELEMENT_SIZE]
      omega
    · rw [castToBool_boolVch, htrue]

theorem leaves_pubkeyhash (o : PubkeyHash script) :
    Leaves P flags checker script st rest ↔
      PushOk flags o.hash ∧ st.length + 1 < 1000 ∧
      ∃ vchPubKey vchSig, st = vchPubKey :: vchSig :: rest ∧
        (P.hash160 vchPubKey).1 = o.hash.vch ∧
        checkSignatureEncoding P flags vchSig = none ∧ checkPubKeyEncoding flags vchPubKey = none ∧
        checker.checkSig vchSig vchPubKey (findAndDelete script (pushData vchSig)) = true := by
  obtain ⟨dup, hash160, hash, equalverify, checksig, hcode, hdup, hhash160, hhash, hequalverify,
    hchecksig⟩ := o
  have hne : hash.vch ≠ [] := by
    intro h
    rw [h] at hhash
    cases hhash
  have hpush := opcode_le_of_vch hcode (by simp) hne
  have hsize : script.length ≤ MAX_SCRIPT_SIZE := by
    refine (length_le_of_ofOps hcode ?_).trans (Nat.le_of_ble_eq_true rfl)
    simp [hdup.2, hhash160.2, hhash, hequalverify.2, hchecksig.2]
  rw [leaves_iff hsize hcode]
  simp only [ofOps_cons]
  constructor
  · rintro ⟨t, heval, -, vch, hstack, htrue⟩
    obtain ⟨s₁, hstep₁, heval₁⟩ := evalCode_op.mp heval
    obtain ⟨hroom, vchPubKey, rest₁, rfl, rfl⟩ := (step_dup (by decide) hdup).mp hstep₁
    obtain ⟨s₂, hstep₂, heval₂⟩ := evalCode_op.mp heval₁
    obtain ⟨-, _, _, hst₂, rfl⟩ := (step_hash160 (by decide) hhash160).mp hstep₂
    cases hst₂
    obtain ⟨s₃, hstep₃, heval₃⟩ := evalCode_op.mp heval₂
    obtain ⟨-, hmin, hroom₃, rfl⟩ := (step_push hpush).mp hstep₃
    obtain ⟨s₄, hstep₄, heval₄⟩ := evalCode_op.mp heval₃
    have hroom₄ : (hash.vch :: (P.hash160 vchPubKey).1 :: vchPubKey :: rest₁).length ≤ 1000 := hroom₃
    obtain ⟨_, _, hst₄, rfl⟩ := (step_equalVerify (by decide) hequalverify hroom₄).mp hstep₄
    obtain ⟨s₅, hstep₅, heval₅⟩ := evalCode_op.mp heval₄
    obtain ⟨heq, hst₄⟩ := cons.inj hst₄
    obtain ⟨heq', rfl⟩ := cons.inj hst₄
    obtain ⟨_, vchSig, _, hst₅, hsig, hkeyOk, rfl⟩ :=
      (step_checkSig (by decide) hchecksig (le_of_lt hroom)).mp hstep₅
    cases hst₅
    cases heval₅
    cases hstack
    rw [castToBool_boolVch] at htrue
    exact ⟨hmin, hroom₃, vchPubKey, vchSig, rfl, heq'.trans heq.symm, hsig, hkeyOk, htrue⟩
  · rintro ⟨hmin, hroom, vchPubKey, vchSig, rfl, heq, hsig, hkeyOk, htrue⟩
    have hroom₂ : (vchPubKey :: vchPubKey :: vchSig :: rest).length ≤ 1000 := le_of_lt hroom
    have hroom₄ : (hash.vch :: hash.vch :: vchPubKey :: vchSig :: rest).length ≤ 1000 := hroom
    have hroom₅ : (vchPubKey :: vchSig :: rest).length ≤ 1000 := Nat.le_of_succ_le hroom₂
    have hlen : hash.vch.length ≤ MAX_SCRIPT_ELEMENT_SIZE := hhash ▸ by decide
    refine ⟨⟨boolVch true :: rest, [], [], 4, script⟩, ?_, rfl, boolVch true, rfl, rfl⟩
    refine evalCode_op.mpr ⟨_, (step_dup (by decide) hdup).mpr ⟨hroom₂, _, _, rfl, rfl⟩, ?_⟩
    refine evalCode_op.mpr ⟨_, (step_hash160 (by decide) hhash160).mpr ⟨hroom₂, _, _, rfl, rfl⟩, ?_⟩
    rw [heq]
    refine evalCode_op.mpr ⟨_, (step_push hpush).mpr ⟨hlen, hmin, hroom, rfl⟩, ?_⟩
    refine evalCode_op.mpr
      ⟨_, (step_equalVerify (by decide) hequalverify hroom₄).mpr ⟨_, _, rfl, rfl⟩, ?_⟩
    refine evalCode_op.mpr ⟨_, (step_checkSig (by decide) hchecksig hroom₅).mpr
      ⟨_, _, _, rfl, hsig, hkeyOk, rfl⟩, ?_⟩
    rw [htrue]
    rfl

theorem decode_scripthash (h : isPayToScriptHash script = true) :
    ∃ hash160 hash equal : Operation, decode script = ofOps [hash160, hash, equal] ∧
      IsOp OP_HASH160 hash160 ∧ hash.opcode = 0x14 ∧ hash.vch = (script.drop 2).take 20 ∧
      hash.vch.length = 20 ∧ IsOp OP_EQUAL equal := by
  simp only [isPayToScriptHash, Bool.and_eq_true, beq_iff_eq] at h
  obtain ⟨⟨⟨hlen, h0⟩, h1⟩, h22⟩ := h
  match script with
  | [] => cases hlen
  | [_] => cases hlen
  | a :: b :: tail =>
    cases h0
    cases h1
    have htail : tail.length = 21 := by simpa using hlen
    have hlast : tail.drop 20 = [OP_EQUAL] := by
      have hsome : tail[20]? = some OP_EQUAL := h22
      rw [drop_eq_getElem_cons (by omega), (List.getElem?_eq_some_iff.mp hsome).2,
        drop_eq_nil_of_le (by omega)]
    have hget₁ : getOp (OP_HASH160 :: 0x14 :: tail) = .ok ⟨OP_HASH160, [], 0x14 :: tail⟩ := rfl
    have hget₂ : getOp (0x14 :: tail) = .ok ⟨0x14, tail.take 20, [OP_EQUAL]⟩ := by
      rw [getOp, if_pos (by decide), pushSize, if_pos (by decide)]
      change (if tail.length < 20 then _ else _) = _
      rw [if_neg (by omega)]
      change Except.ok (⟨0x14, tail.take 20, tail.drop 20⟩ : Operation) = _
      rw [hlast]
    refine ⟨⟨OP_HASH160, [], 0x14 :: tail⟩, ⟨0x14, tail.take 20, [OP_EQUAL]⟩, ⟨OP_EQUAL, [], []⟩,
      ?_, ⟨rfl, rfl⟩, rfl, rfl, ?_, rfl, rfl⟩
    · rw [decode_ok hget₁, decode_ok hget₂]
      rfl
    · rw [length_take]
      omega

theorem leaves_scripthash (h : isPayToScriptHash script = true) :
    Leaves P flags checker script st rest ↔
      st.length < 1000 ∧ ∃ vch, st = vch :: rest ∧ (P.hash160 vch).1 = (script.drop 2).take 20 := by
  obtain ⟨hash160, hash, equal, hcode, hhash160, hopcode, hhash, hlen, hequal⟩ := decode_scripthash h
  have hpush : hash.opcode ≤ OP_PUSHDATA4 := hopcode ▸ by decide
  have hmin : checkMinimalPush hash.vch hash.opcode = true := by
    rw [checkMinimalPush, if_neg (by omega), if_neg (by omega), if_neg (by omega), if_pos (by omega),
      hopcode, hlen]
    rfl
  have hsize : script.length ≤ MAX_SCRIPT_SIZE := by
    refine (length_le_of_ofOps hcode ?_).trans (Nat.le_of_ble_eq_true rfl)
    simp [hhash160.2, hlen, hequal.2]
  rw [leaves_iff hsize hcode]
  simp only [ofOps_cons]
  rw [← hhash]
  constructor
  · rintro ⟨t, heval, -, vch, hstack, htrue⟩
    obtain ⟨s₁, hstep₁, heval₁⟩ := evalCode_op.mp heval
    obtain ⟨-, vch₁, rest₁, rfl, rfl⟩ := (step_hash160 (by decide) hhash160).mp hstep₁
    obtain ⟨s₂, hstep₂, heval₂⟩ := evalCode_op.mp heval₁
    obtain ⟨-, -, hroom, rfl⟩ := (step_push hpush).mp hstep₂
    obtain ⟨s₃, hstep₃, heval₃⟩ := evalCode_op.mp heval₂
    have hroom₃ : (hash.vch :: (P.hash160 vch₁).1 :: rest₁).length ≤ 1000 := hroom
    obtain ⟨_, _, _, hst₃, rfl⟩ := (step_equal (by decide) hequal hroom₃).mp hstep₃
    cases hst₃
    cases heval₃
    cases hstack
    rw [castToBool_boolVch, beq_iff_eq] at htrue
    exact ⟨hroom, vch₁, rfl, htrue⟩
  · rintro ⟨hroom, vch, rfl, heq⟩
    have hroom₁ : (vch :: rest).length ≤ 1000 := le_of_lt hroom
    have hroom₃ : (hash.vch :: (P.hash160 vch).1 :: rest).length ≤ 1000 := hroom
    refine ⟨⟨boolVch true :: rest, [], [], 2, script⟩, ?_, rfl, boolVch true, rfl, rfl⟩
    refine evalCode_op.mpr ⟨_, (step_hash160 (by decide) hhash160).mpr ⟨hroom₁, _, _, rfl, rfl⟩, ?_⟩
    refine evalCode_op.mpr
      ⟨_, (step_push hpush).mpr ⟨hlen ▸ by decide, fun _ => hmin, hroom, rfl⟩, ?_⟩
    refine evalCode_op.mpr
      ⟨_, (step_equal (by decide) hequal hroom₃).mpr ⟨_, _, _, rfl, rfl⟩, ?_⟩
    rw [heq, beq_self_eq_true]
    rfl

theorem mem_keys_of_push (s : Multisig script) (ho : o ∈ s.opM :: s.keys ++ [s.opN, s.checkmultisig])
    (hpush : o.opcode ≤ OP_PUSHDATA4) : o ∈ s.keys := by
  simp only [cons_append, mem_cons, mem_append, not_mem_nil, or_false] at ho
  obtain rfl | ho | rfl | rfl := ho
  · exact absurd hpush (not_push_of_number s.decodeM s.pos)
  · exact ho
  · exact absurd hpush (not_push_of_number s.decodeN (s.pos.trans s.le))
  · rw [s.isCheckmultisig.1] at hpush
    exact absurd hpush (by decide)

theorem mem_keys_of_pushes (s : Multisig script) (h : Pushes (decode script) vch) :
    vch ∈ s.keys.map Operation.vch := by
  obtain ⟨o, ho, hpush, rfl⟩ := h
  rw [s.code, operations_ofOps] at ho
  exact mem_map_of_mem (mem_keys_of_push s ho hpush)

theorem evalCode_keys {keys tail : List Operation}
    (hkeys : ∀ k ∈ keys, k.opcode ≤ OP_PUSHDATA4 ∧ k.vch.length ≤ MAX_SCRIPT_ELEMENT_SIZE) {n : Nat}
    {code : CScript} {t : Machine} :
    evalCode P flags checker (ofOps (keys ++ tail)) ⟨st, [], [], n, code⟩ = .ok ⟨⟩ t ↔
      (∀ k ∈ keys, PushOk flags k) ∧ (∀ i < keys.length, i + st.length < 1000) ∧
      evalCode P flags checker (ofOps tail)
        ⟨(keys.map Operation.vch).reverse ++ st, [], [], n, code⟩ = .ok ⟨⟩ t := by
  induction keys generalizing st with
  | nil => simp
  | cons k keys ih =>
    obtain ⟨⟨hop, hlen⟩, hkeys⟩ := forall_mem_cons.mp hkeys
    rw [cons_append, ofOps_cons, evalCode_op]
    have hrev : ((k :: keys).map Operation.vch).reverse ++ st =
        (keys.map Operation.vch).reverse ++ k.vch :: st := by
      simp
    constructor
    · rintro ⟨s', hstep, heval⟩
      obtain ⟨-, hmin, hroom, rfl⟩ := (step_push hop).mp hstep
      obtain ⟨hmins, hrooms, heval⟩ := (ih hkeys).mp heval
      refine ⟨forall_mem_cons.mpr ⟨hmin, hmins⟩, fun i hi => ?_, hrev ▸ heval⟩
      cases i with
      | zero => omega
      | succ i =>
        have := hrooms i (Nat.lt_of_succ_lt_succ hi)
        rw [length_cons] at this
        omega
    · rintro ⟨hmins, hrooms, heval⟩
      obtain ⟨hmin, hmins⟩ := forall_mem_cons.mp hmins
      have hroom := hrooms 0 (Nat.succ_pos _)
      refine ⟨⟨k.vch :: st, [], [], n, code⟩, (step_push hop).mpr ⟨hlen, hmin, by omega, rfl⟩,
        (ih hkeys).mpr ⟨hmins, fun i hi => ?_, hrev ▸ heval⟩⟩
      have := hrooms (i + 1) (Nat.succ_lt_succ hi)
      rw [length_cons]
      omega

structure Lax (flags : BitVec 32) : Prop where
  dersig : has flags .DERSIG = false
  lowS : has flags .LOW_S = false
  strictenc : has flags .STRICTENC = false
  minimaldata : has flags .MINIMALDATA = false
  nulldummy : has flags .NULLDUMMY = false

theorem Lax.signature (h : Lax flags) : checkSignatureEncoding P flags vchSig = none := by
  simp [checkSignatureEncoding, h.dersig, h.lowS, h.strictenc]

theorem Lax.pubkey (h : Lax flags) : checkPubKeyEncoding flags vchPubKey = none := by
  simp [checkPubKeyEncoding, h.strictenc]

theorem Lax.push (h : Lax flags) : PushOk flags o := by
  intro hmin
  rw [h.minimaldata] at hmin
  cases hmin

theorem leaves_multisig_body (s : Multisig script) :
    Leaves P flags checker script st rest ↔
      (∀ k ∈ s.keys, PushOk flags k) ∧ st.length + s.n + 1 < 1000 ∧
      ∃ t, checkMultisigBody P flags checker false script s.n s.m
        ⟨[.ofNat s.n] :: ((s.keys.map Operation.vch).reverse ++ [.ofNat s.m] :: st), [], [], 1 + s.n,
          script⟩ = .ok ⟨⟩ t ∧ t.vfExec = [] ∧
        t.stack.length + t.altstack.length ≤ 1000 ∧
        ∃ vch, t.stack = vch :: rest ∧ castToBool vch = true := by
  obtain ⟨opM, keys, opN, checkmultisig, m, n, hcode, hm, hkeys, hn, hcheckmultisig, hpos, hle,
    hcount⟩ := s
  dsimp only
  have hopM : opM.vch = [] := vch_of_ofOps hcode (by simp) (not_push_of_number hm hpos)
  have hopN : opN.vch = [] := vch_of_ofOps hcode (by simp) (not_push_of_number hn (hpos.trans hle))
  have h16 := decodeOP_N_le hn
  have hpushes : ∀ k ∈ keys, k.opcode ≤ OP_PUSHDATA4 ∧ k.vch.length ≤ MAX_SCRIPT_ELEMENT_SIZE := by
    intro k hk
    have hmem : k ∈ opM :: keys ++ [opN, checkmultisig] := by simp [hk]
    refine ⟨opcode_le_of_vch hcode hmem (ne_nil_of_isKeySize (hkeys k hk)), ?_⟩
    exact (isKeySize_iff.mp (hkeys k hk)).2.trans (by decide)
  have hsize : script.length ≤ MAX_SCRIPT_SIZE := by
    refine (length_le_of_ofOps hcode fun o ho => ?_).trans ?_
    · simp only [cons_append, mem_cons, mem_append, not_mem_nil, or_false] at ho
      obtain rfl | ho | rfl | rfl := ho
      · simp [hopM]
      · exact (isKeySize_iff.mp (hkeys o ho)).2
      · simp [hopN]
      · simp [hcheckmultisig.2]
    · simp only [length_append, length_cons, length_nil, MAX_SCRIPT_SIZE]
      omega
  have hexec : execute P flags checker true checkmultisig = checkMultisig P flags checker false := by
    rw [execute, hcheckmultisig.1]
    rfl
  have hkeysLen : ((keys.map Operation.vch).reverse).length = n := by
    rw [length_reverse, length_map, hcount]
  have hbody : checkMultisig P flags checker false ⟨_, [], [], 1, script⟩ = _ :=
    checkMultisig_eq_body st false hpos hle h16 hkeysLen (by simp only [MAX_OPS_PER_SCRIPT]; omega)
  rw [leaves_iff hsize hcode, cons_append, ofOps_cons]
  constructor
  · rintro ⟨t, heval, hvf, htop⟩
    obtain ⟨s₁, hstep₁, heval₁⟩ := evalCode_op.mp heval
    obtain ⟨hroom, rfl⟩ := (step_number hm hpos hopM).mp hstep₁
    obtain ⟨hmins, -, heval₂⟩ := (evalCode_keys hpushes).mp heval₁
    obtain ⟨s₃, hstep₃, heval₃⟩ := evalCode_op.mp heval₂
    obtain ⟨hroom₃, rfl⟩ := (step_number hn (hpos.trans hle) hopN).mp hstep₃
    obtain ⟨s₄, hstep₄, heval₄⟩ := evalCode_op.mp heval₃
    rw [step_execute (by rw [hcheckmultisig.1]; decide) (by rw [hcheckmultisig.1]; decide)
      hcheckmultisig.2, hexec, hbody] at hstep₄
    cases heval₄
    rw [length_append, hkeysLen, length_cons] at hroom₃
    exact ⟨hmins, by omega, t, hstep₄.2.1, hvf, hstep₄.2.2, htop⟩
  · rintro ⟨hmins, hroom, t, hrun, hvf, hlen, htop⟩
    refine ⟨t, evalCode_op.mpr ⟨_, (step_number hm hpos hopM).mpr ⟨by omega, rfl⟩, ?_⟩, hvf, htop⟩
    refine (evalCode_keys hpushes).mpr ⟨hmins, fun i hi => ?_, ?_⟩
    · rw [length_cons]
      omega
    refine evalCode_op.mpr ⟨_, (step_number hn (hpos.trans hle) hopN).mpr ⟨?_, rfl⟩, ?_⟩
    · rw [length_append, hkeysLen, length_cons]
      omega
    refine evalCode_op.mpr ⟨t, ?_, rfl⟩
    rw [step_execute (by rw [hcheckmultisig.1]; decide) (by rw [hcheckmultisig.1]; decide)
      hcheckmultisig.2, hexec, hbody]
    exact ⟨by decide, hrun, hlen⟩

theorem lt_length_of_leaves_multisig (s : Multisig script)
    (h : Leaves P flags checker script st rest) : s.m < st.length := by
  obtain ⟨-, -, t, hrun, -⟩ := (leaves_multisig_body s).mp h
  refine le_length_of_checkMultisigBody ?_ hrun
  rw [length_reverse, length_map, s.count]

theorem leaves_multisig (s : Multisig script) (hsigs : sigs.length = s.m)
    (hdelete : ∀ sig ∈ sigs, findAndDelete script (pushData sig) = script)
    (hkeysOk : ∀ k ∈ s.keys, checkPubKeyEncoding flags k.vch = none)
    (hsigsOk : ∀ sig ∈ sigs, checkSignatureEncoding P flags sig = none)
    (hdummy : has flags .NULLDUMMY = true → dummy = []) :
    Leaves P flags checker script (sigs ++ dummy :: rest') rest ↔
      (∀ k ∈ s.keys, PushOk flags k) ∧ s.m + rest'.length + s.n + 2 < 1000 ∧ rest' = rest ∧
      greedy (fun sig key => checker.checkSig sig key script) sigs.reverse
        (s.keys.map Operation.vch) = true := by
  have hkeysLen : ((s.keys.map Operation.vch).reverse).length = s.n := by
    rw [length_reverse, length_map, s.count]
  have hkeysOk' : ∀ key ∈ (s.keys.map Operation.vch).reverse,
      checkPubKeyEncoding flags key = none := by
    simpa using hkeysOk
  have hback := greedy_reverse (fun sig key => checker.checkSig sig key script) sigs.reverse
    (s.keys.map Operation.vch)
  rw [reverse_reverse] at hback
  rw [leaves_multisig_body s, checkMultisigBody_eq hkeysLen hsigs hdelete hkeysOk' hsigsOk hdummy, hback, length_append,
    length_cons, hsigs]
  constructor
  · rintro ⟨hmins, hroom, t, hrun, -, -, vch, hstack, htrue⟩
    cases hrun
    cases hstack
    rw [castToBool_boolVch] at htrue
    exact ⟨hmins, by omega, rfl, htrue⟩
  · rintro ⟨hmins, hroom, rfl, htrue⟩
    refine ⟨hmins, by omega, _, rfl, rfl, ?_, _, rfl, ?_⟩
    · simp only [length_cons, length_nil]
      omega
    · rw [castToBool_boolVch, htrue]

theorem requireTrue_ok :
    requireTrue st = .ok ⟨⟩ st' ↔ ∃ vch rest, st = vch :: rest ∧ castToBool vch = true ∧ st' = st := by
  rw [requireTrue, get_bind_apply]
  match st with
  | [] => exact ⟨nofun, by rintro ⟨_, _, h, _⟩; cases h⟩
  | vch :: rest =>
    dsimp only
    rw [reject]
    split_ifs with hfalse
    · refine ⟨nofun, ?_⟩
      rintro ⟨_, _, h, htrue, -⟩
      cases h
      rw [hfalse] at htrue
      cases htrue
    · constructor
      · intro h
        cases h
        exact ⟨vch, rest, rfl, Bool.eq_true_of_not_eq_false hfalse, rfl⟩
      · rintro ⟨_, _, -, -, rfl⟩
        rfl

theorem bind_reject_ok [Decidable c] :
    (reject c serror >>= k) st = .ok a st' ↔ ¬c ∧ k ⟨⟩ st = .ok a st' := by
  rw [reject]
  split_ifs with h
  · exact ⟨nofun, fun hc => absurd h hc.1⟩
  · exact ⟨fun hk => ⟨h, hk⟩, fun hk => hk.2⟩

theorem cleanStack_ok (hclean : has flags .CLEANSTACK = true → has flags .P2SH = true) :
    cleanStack flags st = .ok ⟨⟩ st' ↔ (has flags .CLEANSTACK = true → st.length = 1) ∧ st' = st := by
  rw [cleanStack]
  split_ifs with h h'
  · rw [get_bind_apply, reject]
    split_ifs with hlen
    · exact ⟨nofun, fun hs => absurd (hs.1 h) hlen⟩
    · exact ⟨fun hs => ⟨fun _ => not_not.mp hlen, by cases hs; rfl⟩, fun hs => by rw [hs.2]; rfl⟩
  · exact absurd (hclean h) h'
  · exact ⟨fun hs => ⟨fun hc => absurd hc h, by cases hs; rfl⟩, fun hs => by rw [hs.2]; rfl⟩

theorem bind_evalScript_ok :
    ((evalScript P flags checker script) >>= fun _ => requireTrue >>= k) st = .ok a st' ↔
      ∃ vch rest, evalScript P flags checker script st = .ok ⟨⟩ (vch :: rest) ∧
        castToBool vch = true ∧ k ⟨⟩ (vch :: rest) = .ok a st' := by
  rw [bind_eq_ok_iff]
  constructor
  · rintro ⟨_, st₁, heval, hrest⟩
    obtain ⟨_, st₂, htop, hk⟩ := bind_eq_ok_iff.mp hrest
    obtain ⟨vch, rest, rfl, htrue, rfl⟩ := requireTrue_ok.mp htop
    exact ⟨vch, rest, heval, htrue, hk⟩
  · rintro ⟨vch, rest, heval, htrue, hk⟩
    exact ⟨⟨⟩, _, heval, bind_eq_ok_iff.mpr ⟨⟨⟩, _, requireTrue_ok.mpr ⟨vch, rest, rfl, htrue, rfl⟩, hk⟩⟩

section

variable {scriptSig scriptPubKey : CScript}

theorem verifyScript_iff : verifyScript P flags checker scriptSig scriptPubKey = true ↔
    ∃ st, verifyBody P flags checker scriptSig scriptPubKey [] = .ok ⟨⟩ st := by
  rw [verifyScript]
  split
  · next st h => exact ⟨fun _ => ⟨st, h⟩, fun _ => rfl⟩
  · next e st h =>
      refine ⟨nofun, ?_⟩
      rintro ⟨st', h'⟩
      rw [h] at h'
      cases h'

theorem verifyBody_ok (honly : has flags .SIGPUSHONLY = false) :
    verifyBody P flags checker scriptSig scriptPubKey [] = .ok ⟨⟩ st' ↔
      ∃ st vch rest, evalScript P flags checker scriptSig [] = .ok ⟨⟩ st ∧
        evalScript P flags checker scriptPubKey st = .ok ⟨⟩ (vch :: rest) ∧ castToBool vch = true ∧
        (redeemIf P flags checker (has flags .P2SH && isPayToScriptHash scriptPubKey) scriptSig st >>=
          fun _ => cleanStack flags) (vch :: rest) = .ok ⟨⟩ st' := by
  rw [verifyBody, bind_reject_ok, bind_eq_ok_iff]
  constructor
  · rintro ⟨-, _, st, hsig, h⟩
    rw [get_bind_apply, bind_evalScript_ok] at h
    obtain ⟨vch, rest, heval, htrue, h⟩ := h
    exact ⟨st, vch, rest, hsig, heval, htrue, h⟩
  · rintro ⟨st, vch, rest, hsig, heval, htrue, h⟩
    refine ⟨by simp [honly], ⟨⟩, st, hsig, ?_⟩
    rw [get_bind_apply, bind_evalScript_ok]
    exact ⟨vch, rest, heval, htrue, h⟩

variable (hclean : has flags .CLEANSTACK = true → has flags .P2SH = true)

include hclean

theorem cleanStack_ends_iff (vch : Bytes) :
    (∃ st', cleanStack flags (vch :: rest) = .ok ⟨⟩ st') ↔ (has flags .CLEANSTACK = true → rest = []) := by
  simp only [cleanStack_ok hclean, length_cons, Nat.add_eq_right, length_eq_zero_iff]
  exact ⟨fun ⟨_, hempty, _⟩ => hempty, fun hempty => ⟨_, hempty, rfl⟩⟩

variable (honly : has flags .SIGPUSHONLY = false)

include honly

theorem verifyScript_plain (hplain : (has flags .P2SH && isPayToScriptHash scriptPubKey) = false) :
    verifyScript P flags checker scriptSig scriptPubKey = true ↔
      ∃ st rest, evalScript P flags checker scriptSig [] = .ok ⟨⟩ st ∧
        Leaves P flags checker scriptPubKey st rest ∧ (has flags .CLEANSTACK = true → rest = []) := by
  rw [verifyScript_iff]
  constructor
  · rintro ⟨st', h⟩
    obtain ⟨st, vch, rest, hsig, heval, htrue, h⟩ := (verifyBody_ok honly).mp h
    rw [hplain, redeemIf, if_neg Bool.false_ne_true] at h
    exact ⟨st, rest, hsig, ⟨vch, heval, htrue⟩, (cleanStack_ends_iff hclean _).mp ⟨st', h⟩⟩
  · rintro ⟨st, rest, hsig, ⟨vch, heval, htrue⟩, hempty⟩
    obtain ⟨st', h⟩ := (cleanStack_ends_iff hclean vch).mpr hempty
    refine ⟨st', (verifyBody_ok honly).mpr ⟨st, vch, rest, hsig, heval, htrue, ?_⟩⟩
    rw [hplain, redeemIf, if_neg Bool.false_ne_true]
    exact h

theorem verifyScript_scripthash (hp2sh : has flags .P2SH = true)
    (hspk : isPayToScriptHash scriptPubKey = true) :
    verifyScript P flags checker scriptSig scriptPubKey = true ↔
      ∃ redeemScript st rest,
        evalScript P flags checker scriptSig [] = .ok ⟨⟩ (redeemScript :: st) ∧
        isPushOnly scriptSig = true ∧ st.length + 1 < 1000 ∧
        (P.hash160 redeemScript).1 = (scriptPubKey.drop 2).take 20 ∧
        Leaves P flags checker redeemScript st rest ∧ (has flags .CLEANSTACK = true → rest = []) := by
  have hboth : (has flags .P2SH && isPayToScriptHash scriptPubKey) = true := by rw [hp2sh, hspk]; rfl
  rw [verifyScript_iff]
  constructor
  · rintro ⟨st', h⟩
    obtain ⟨st, vch, rest, hsig, heval, htrue, h⟩ := (verifyBody_ok honly).mp h
    obtain ⟨hroom, redeemScript, rfl, heq⟩ := (leaves_scripthash hspk).mp ⟨vch, heval, htrue⟩
    rw [hboth, redeemIf, if_pos rfl, redeem, bind_assoc, bind_reject_ok, bind_assoc, set_bind_apply,
      bind_assoc, bind_evalScript_ok] at h
    obtain ⟨hpush, vch', rest', heval', htrue', h⟩ := h
    exact ⟨redeemScript, rest, rest', hsig, by simpa using hpush, hroom, heq, ⟨vch', heval', htrue'⟩,
      (cleanStack_ends_iff hclean _).mp ⟨st', h⟩⟩
  · rintro ⟨redeemScript, st, rest, hsig, hpush, hroom, heq, ⟨vch', heval', htrue'⟩, hempty⟩
    obtain ⟨vch, heval, htrue⟩ : Leaves P flags checker scriptPubKey (redeemScript :: st) st :=
      (leaves_scripthash hspk).mpr ⟨hroom, redeemScript, rfl, heq⟩
    obtain ⟨st', h⟩ := (cleanStack_ends_iff hclean vch').mpr hempty
    refine ⟨st', (verifyBody_ok honly).mpr ⟨redeemScript :: st, vch, st, hsig, heval, htrue, ?_⟩⟩
    rw [hboth, redeemIf, if_pos rfl, redeem, bind_assoc, bind_reject_ok, bind_assoc, set_bind_apply,
      bind_assoc, bind_evalScript_ok]
    exact ⟨by simp [hpush], vch', rest, heval', htrue', h⟩

end

end

end Utsuite.ScriptRun
