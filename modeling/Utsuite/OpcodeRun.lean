import Utsuite.GreedyMatch
import Utsuite.Interpreter
import Utsuite.ScriptBytes

namespace Utsuite.OpcodeRun

open ByteWords Transaction Script Interpreter Hoare GreedyMatch Standard ScriptBytes List
open ScriptSign (pushData)

section

variable {P : Primitives} {flags : BitVec 32} {checker : BaseSignatureChecker}

theorem failIf_pos [Decidable c] (h : c) (serror : ScriptError) (s : Machine) :
    failIf c serror s = .error (.error serror) s := by
  rw [failIf, if_pos h]
  rfl

theorem failIf_neg [Decidable c] (h : ¬c) (serror : ScriptError) (s : Machine) :
    failIf c serror s = .ok ⟨⟩ s := by
  rw [failIf, if_neg h]
  rfl

theorem bind_failIf_ok [Decidable c] :
    (failIf c serror >>= k) s = .ok a t ↔ ¬c ∧ k ⟨⟩ s = .ok a t := by
  by_cases h : c
  · rw [bind_apply_error (failIf_pos h serror s)]
    simp [h]
  · rw [bind_apply_ok (failIf_neg h serror s)]
    simp [h]

theorem sizeLimit_ok :
    sizeLimit s = .ok ⟨⟩ t ↔ s.stack.length + s.altstack.length ≤ 1000 ∧ t = s := by
  rw [sizeLimit, get_bind_apply]
  by_cases h : s.stack.length + s.altstack.length > 1000
  · rw [failIf_pos h]
    exact ⟨nofun, fun hs => by omega⟩
  · rw [failIf_neg h]
    exact ⟨fun hs => ⟨by omega, by cases hs; rfl⟩, fun hs => by rw [hs.2]⟩

theorem evalCode_op :
    evalCode P flags checker (.op o rest) s = .ok ⟨⟩ t ↔
      ∃ s', step P flags checker o s = .ok ⟨⟩ s' ∧ evalCode P flags checker rest s' = .ok ⟨⟩ t := by
  rw [evalCode, bind_eq_ok_iff]
  exact ⟨fun ⟨_, s', h⟩ => ⟨s', h⟩, fun ⟨s', h⟩ => ⟨⟨⟩, s', h⟩⟩

theorem countOp_push (h : opcode ≤ OP_16) (s : Machine) : countOp opcode s = .ok ⟨⟩ s := by
  rw [countOp, if_neg (UInt8.not_lt.mpr h)]
  rfl

variable {o : Operation} {st : List Bytes} {n : Nat} {code : CScript} {t : Machine}

theorem not_disabled_of_le (h : o.opcode ≤ OP_16) : o.opcode ∉ disabled := by
  intro hmem
  have hall : (disabled.all fun opcode => OP_16 < opcode) = true := by decide +kernel
  exact UInt8.not_lt.mpr h (of_decide_eq_true (all_eq_true.mp hall _ hmem))

theorem step_push (hop : o.opcode ≤ OP_PUSHDATA4) :
    step P flags checker o ⟨st, [], [], n, code⟩ = .ok ⟨⟩ t ↔
      o.vch.length ≤ MAX_SCRIPT_ELEMENT_SIZE ∧
      (has flags .MINIMALDATA = true → checkMinimalPush o.vch o.opcode = true) ∧
      st.length < 1000 ∧ t = ⟨o.vch :: st, [], [], n, code⟩ := by
  have h16 : o.opcode ≤ OP_16 := UInt8.le_trans hop (by decide)
  have hdispatch : dispatch P flags checker true o = pushValue flags o := if_pos ⟨rfl, hop⟩
  rw [step, get_bind_apply, bind_failIf_ok, bind_apply_ok (countOp_push h16 _), bind_failIf_ok]
  simp only [all_nil, hdispatch]
  rw [pushValue, bind_assoc, bind_failIf_ok, push, modify_bind_apply, sizeLimit_ok]
  simp only [not_lt, not_disabled_of_le h16, not_false_eq_true, true_and, length_cons,
    length_nil, add_zero, Nat.succ_le_iff]
  simp

theorem step_number (hop : decodeOP_N o.opcode = some k) (hk : 1 ≤ k) (hvch : o.vch = []) :
    step P flags checker o ⟨st, [], [], n, code⟩ = .ok ⟨⟩ t ↔
      st.length < 1000 ∧ t = ⟨[.ofNat k] :: st, [], [], n, code⟩ := by
  have h16 := decodeOP_N_le hop
  have hcode : o.opcode = .ofNat (80 + k) := by
    rw [decodeOP_N] at hop
    split_ifs at hop with h0 hrange
    · cases hop
      omega
    · have hle := UInt8.le_iff_toNat_le.mp hrange.1
      have hk' := Option.some.inj hop
      have h81 : OP_1.toNat = 81 := rfl
      rw [← UInt8.ofNat_toNat (x := o.opcode)]
      congr 1
      omega
  have hnumbers : ∀ k ≤ 16, 1 ≤ k → .ofNat (80 + k) ≤ OP_16 ∧
      ¬.ofNat (80 + k) ≤ OP_PUSHDATA4 ∧
      caseLabels.lookup (.ofNat (80 + k)) = some .pushNumber ∧
      serialize (((UInt8.ofNat (80 + k)).toNat : Int) - (OP_1.toNat - 1)) = [UInt8.ofNat k] := by
    decide +kernel
  obtain ⟨hle, hpush, hcase, hvalue⟩ := hnumbers k h16 hk
  rw [← hcode] at hle hpush hcase hvalue
  have hdispatch : dispatch P flags checker true o = push [.ofNat k] := by
    rw [dispatch, if_neg (fun h => hpush h.2), if_pos (.inl rfl), execute, hcase]
    exact congrArg push hvalue
  rw [step, get_bind_apply, bind_failIf_ok, bind_apply_ok (countOp_push hle _), bind_failIf_ok]
  simp only [all_nil, hdispatch]
  rw [push, modify_bind_apply, sizeLimit_ok]
  simp only [hvch, length_nil, Nat.not_lt_zero, not_disabled_of_le hle, not_false_eq_true,
    true_and, length_cons, add_zero, Nat.succ_le_iff, gt_iff_lt]

theorem step_execute (hop : OP_16 < o.opcode) (hdisabled : o.opcode ∉ disabled)
    (hvch : o.vch = []) :
    step P flags checker o ⟨st, [], [], n, code⟩ = .ok ⟨⟩ t ↔
      n < MAX_OPS_PER_SCRIPT ∧ execute P flags checker true o ⟨st, [], [], n + 1, code⟩ = .ok ⟨⟩ t ∧
      t.stack.length + t.altstack.length ≤ 1000 := by
  have hpush : ¬o.opcode ≤ OP_PUSHDATA4 := fun h =>
    UInt8.not_lt.mpr (UInt8.le_trans h (by decide)) hop
  have hdispatch : dispatch P flags checker true o = execute P flags checker true o := by
    rw [dispatch, if_neg (fun h => hpush h.2), if_pos (.inl rfl)]
  rw [step, get_bind_apply, bind_failIf_ok, countOp, if_pos hop, bind_assoc, modify_bind_apply,
    bind_assoc, get_bind_apply, bind_failIf_ok, bind_failIf_ok]
  simp only [all_nil, hdispatch]
  rw [bind_eq_ok_iff]
  simp only [sizeLimit_ok, hvch, length_nil, Nat.not_lt_zero, hdisabled, not_false_eq_true,
    true_and, gt_iff_lt, not_lt, Nat.succ_le_iff]
  refine and_congr_right fun _ => ⟨?_, fun ⟨hexec, hsize⟩ => ⟨⟨⟩, t, hexec, hsize, rfl⟩⟩
  rintro ⟨_, s', hexec, hsize, rfl⟩
  exact ⟨hexec, hsize⟩

end

section

variable {P : Primitives} {flags : BitVec 32} {checker : BaseSignatureChecker}
  {st : List Bytes} {n : Nat} {code : CScript} {t : Machine}

theorem bind_failWith_ok : (failWith e >>= k) s = .ok a t ↔ e = none ∧ k ⟨⟩ s = .ok a t := by
  cases e with
  | none => exact ⟨fun h => ⟨rfl, h⟩, fun h => h.2⟩
  | some serror => exact ⟨nofun, nofun⟩

theorem needStack_ok (h : k ≤ s.stack.length) : needStack k serror s = .ok ⟨⟩ s := by
  rw [needStack, get_bind_apply, failIf_neg (by omega)]

theorem bind_needStack_ok :
    (needStack k serror >>= f) s = .ok a t ↔ k ≤ s.stack.length ∧ f ⟨⟩ s = .ok a t := by
  rw [needStack, bind_assoc, get_bind_apply, bind_failIf_ok, not_lt]

theorem stacktop_ok (h : s.stack[i]? = some vch) : stacktop (i + 1) s = .ok vch s := by
  rw [stacktop, get_bind_apply, h]
  rfl

theorem checkSig_ok :
    checkSig P flags checker false ⟨st, [], [], n, code⟩ = .ok ⟨⟩ t ↔
      ∃ vchPubKey vchSig rest, st = vchPubKey :: vchSig :: rest ∧
        checkSignatureEncoding P flags vchSig = none ∧ checkPubKeyEncoding flags vchPubKey = none ∧
        t = ⟨boolVch (checker.checkSig vchSig vchPubKey (findAndDelete code (pushData vchSig))) :: rest,
          [], [], n, code⟩ := by
  rw [checkSig, bind_needStack_ok]
  match st with
  | [] => exact ⟨nofun, by rintro ⟨_, _, _, h, _⟩; cases h⟩
  | [_] => exact ⟨nofun, by rintro ⟨_, _, _, h, _⟩; cases h⟩
  | vchPubKey :: vchSig :: rest =>
    have htop (i : Nat) (vch : Bytes) (h : (vchPubKey :: vchSig :: rest)[i]? = some vch) :
        stacktop (i + 1) ⟨vchPubKey :: vchSig :: rest, [], [], n, code⟩ = .ok vch _ :=
      stacktop_ok h
    rw [bind_apply_ok (htop 1 vchSig rfl), bind_apply_ok (htop 0 vchPubKey rfl), get_bind_apply,
      bind_failWith_ok, bind_failWith_ok]
    constructor
    · rintro ⟨-, hsig, hkey, h⟩
      cases h
      exact ⟨vchPubKey, vchSig, rest, rfl, hsig, hkey, rfl⟩
    · rintro ⟨_, _, _, h, hsig, hkey, rfl⟩
      cases h
      exact ⟨by simp, hsig, hkey, rfl⟩

theorem dup_ok :
    dup ⟨st, [], [], n, code⟩ = .ok ⟨⟩ t ↔
      ∃ vch rest, st = vch :: rest ∧ t = ⟨vch :: vch :: rest, [], [], n, code⟩ := by
  match st with
  | [] => exact ⟨nofun, by rintro ⟨_, _, h, _⟩; cases h⟩
  | vch :: rest =>
    constructor
    · intro h
      cases h
      exact ⟨vch, rest, rfl, rfl⟩
    · rintro ⟨_, _, h, rfl⟩
      cases h
      rfl

theorem hash160_ok :
    hash P OP_HASH160 ⟨st, [], [], n, code⟩ = .ok ⟨⟩ t ↔
      ∃ vch rest, st = vch :: rest ∧ t = ⟨(P.hash160 vch).1 :: rest, [], [], n, code⟩ := by
  match st with
  | [] => exact ⟨nofun, by rintro ⟨_, _, h, _⟩; cases h⟩
  | vch :: rest =>
    constructor
    · intro h
      cases h
      exact ⟨vch, rest, rfl, rfl⟩
    · rintro ⟨_, _, h, rfl⟩
      cases h
      rfl

theorem equal_ok :
    equal false ⟨st, [], [], n, code⟩ = .ok ⟨⟩ t ↔
      ∃ vch1 vch2 rest, st = vch2 :: vch1 :: rest ∧
        t = ⟨boolVch (vch1 == vch2) :: rest, [], [], n, code⟩ := by
  match st with
  | [] => exact ⟨nofun, by rintro ⟨_, _, _, h, _⟩; cases h⟩
  | [_] => exact ⟨nofun, by rintro ⟨_, _, _, h, _⟩; cases h⟩
  | vch2 :: vch1 :: rest =>
    constructor
    · intro h
      cases h
      exact ⟨vch1, vch2, rest, rfl, rfl⟩
    · rintro ⟨_, _, _, h, rfl⟩
      cases h
      rfl

theorem equalVerify_ok :
    equal true ⟨st, [], [], n, code⟩ = .ok ⟨⟩ t ↔
      ∃ vch rest, st = vch :: vch :: rest ∧ t = ⟨rest, [], [], n, code⟩ := by
  match st with
  | [] => exact ⟨nofun, by rintro ⟨_, _, h, _⟩; cases h⟩
  | [_] => exact ⟨nofun, by rintro ⟨_, _, h, _⟩; cases h⟩
  | vch2 :: vch1 :: rest =>
    have hrun : equal true ⟨vch2 :: vch1 :: rest, [], [], n, code⟩ =
        verifyTop (vch1 == vch2) .EQUALVERIFY ⟨boolVch (vch1 == vch2) :: rest, [], [], n, code⟩ := rfl
    rw [hrun, verifyTop]
    by_cases heq : vch1 = vch2
    · rw [if_pos (beq_iff_eq.mpr heq)]
      constructor
      · intro h
        cases h
        exact ⟨vch1, rest, by rw [heq], rfl⟩
      · rintro ⟨_, _, h, rfl⟩
        cases h
        rfl
    · rw [if_neg (fun h => heq (beq_iff_eq.mp h))]
      refine ⟨nofun, ?_⟩
      rintro ⟨_, _, h, -⟩
      cases h
      exact absurd rfl heq

end

section

variable {P : Primitives} {flags : BitVec 32} {checker : BaseSignatureChecker}

theorem getElem?_of_drop {xs st : List Bytes} {x : Bytes} {i : Nat} (h : x :: xs <+: st.drop i) :
    st[i]? = some x ∧ xs <+: st.drop (i + 1) := by
  obtain ⟨rest, hrest⟩ := h
  refine ⟨?_, rest, ?_⟩
  · rw [← head?_drop, ← hrest]
    rfl
  · rw [← tail_drop, ← hrest]
    rfl

theorem checkSigs_eq {scriptCode : CScript} {s : Machine} (keys sigs : List Bytes) (ikey isig : Nat)
    (hkeys : keys <+: s.stack.drop ikey) (hsigs : sigs <+: s.stack.drop isig)
    (hkeysOk : ∀ key ∈ keys, checkPubKeyEncoding flags key = none)
    (hsigsOk : ∀ sig ∈ sigs, checkSignatureEncoding P flags sig = none) :
    checkSigs P flags checker scriptCode keys.length sigs.length (isig + 1) (ikey + 1) s =
      .ok (greedy (fun sig key => checker.checkSig sig key scriptCode) sigs keys) s := by
  induction keys generalizing sigs ikey isig with
  | nil => cases sigs <;> rfl
  | cons key keys ih =>
    cases sigs with
    | nil => rfl
    | cons sig sigs =>
      obtain ⟨hkey, hkeys'⟩ := getElem?_of_drop hkeys
      obtain ⟨hsig, hsigs'⟩ := getElem?_of_drop hsigs
      obtain ⟨hkeyOk, hkeysOk⟩ := forall_mem_cons.mp hkeysOk
      have hsigOk := hsigsOk sig mem_cons_self
      rw [length_cons, length_cons, checkSigs, bind_apply_ok (stacktop_ok hsig),
        bind_apply_ok (stacktop_ok hkey), hsigOk, hkeyOk, greedy]
      change (if _ then _ else _ : Eval Bool) s = _
      cases hok : checker.checkSig sig key scriptCode with
      | true =>
        simp only [if_true]
        split_ifs with hless
        · rw [greedy_eq_false hless]
          rfl
        · exact ih sigs (ikey + 1) (isig + 1) hkeys' hsigs' hkeysOk
            fun sig' h => hsigsOk sig' (mem_cons_of_mem _ h)
      | false =>
        simp only [Bool.false_eq_true, if_false]
        split_ifs with hless
        · rw [greedy_eq_false hless]
          rfl
        · exact ih (sig :: sigs) (ikey + 1) isig hkeys' hsigs hkeysOk hsigsOk

theorem dropSigs_eq {scriptCode : CScript} {s : Machine} (sigs : List Bytes) (isig : Nat)
    (hsigs : sigs <+: s.stack.drop isig)
    (h : ∀ sig ∈ sigs, findAndDelete scriptCode (pushData sig) = scriptCode) :
    dropSigs sigs.length (isig + 1) scriptCode s = .ok scriptCode s := by
  induction sigs generalizing isig with
  | nil => rfl
  | cons sig sigs ih =>
    obtain ⟨hsig, hsigs⟩ := getElem?_of_drop hsigs
    obtain ⟨hnone, h⟩ := forall_mem_cons.mp h
    rw [length_cons, dropSigs, bind_apply_ok (stacktop_ok hsig), hnone]
    exact ih (isig + 1) hsigs h

theorem popstacks_eq (xs rest : List Bytes) (n : Nat) (code : CScript) :
    popstacks xs.length ⟨xs ++ rest, [], [], n, code⟩ = .ok ⟨⟩ ⟨rest, [], [], n, code⟩ := by
  induction xs with
  | nil => rfl
  | cons x xs ih => exact ih

theorem number_small (hk : k ≤ 16) (hpos : 1 ≤ k) (fRequireMinimal : Bool) (s : Machine) :
    number [.ofNat k] fRequireMinimal 4 s = .ok (k : Int) s := by
  have hall : ∀ k ≤ 16, 1 ≤ k → ∀ b, scriptNum [.ofNat k] b 4 = some (k : Int) := by
    decide +kernel
  rw [number, hall k hk hpos]
  rfl

theorem getint_small {k : Nat} (hk : k ≤ 16) : getint (k : Int) = k := by
  rw [getint, if_neg (by omega), if_neg (by omega)]

variable {keys : List Bytes} {m n count : Nat} {code : CScript}

def checkMultisigBody (P : Primitives) (flags : BitVec 32) (checker : BaseSignatureChecker)
    (fVerify : Bool) (pbegincodehash : CScript) (nKeysCount nSigsCount : Nat) : Eval PUnit := do
  let isig := 2 + nKeysCount + 1
  needStack (isig + nSigsCount) .INVALID_STACK_OPERATION
  let scriptCode ← dropSigs nSigsCount isig pbegincodehash
  let fSuccess ← checkSigs P flags checker scriptCode nKeysCount nSigsCount isig 2
  popstacks (isig + nSigsCount - 1)
  popDummy flags
  push (boolVch fSuccess)
  verifyIf fVerify fSuccess .CHECKMULTISIGVERIFY

theorem checkMultisig_eq_body (st : List Bytes) (fVerify : Bool) (hpos : 1 ≤ m) (hle : m ≤ n)
    (h16 : n ≤ 16) (hkeys : keys.length = n) (hops : count + n ≤ MAX_OPS_PER_SCRIPT) :
    checkMultisig P flags checker fVerify
      ⟨[.ofNat n] :: (keys ++ [.ofNat m] :: st), [], [], count, code⟩ =
    checkMultisigBody P flags checker fVerify code n m
      ⟨[.ofNat n] :: (keys ++ [.ofNat m] :: st), [], [], count + n, code⟩ := by
  have htop (s : Machine) (hs : s.stack = [.ofNat n] :: (keys ++ [.ofNat m] :: st)) :
      stacktop (2 + n) s = .ok [.ofNat m] s := by
    rw [show 2 + n = n + 1 + 1 by omega]
    refine stacktop_ok ?_
    rw [hs, getElem?_cons_succ, getElem?_append_right (by omega), hkeys, Nat.sub_self]
    rfl
  have hlen : 2 + n ≤ ([.ofNat n] :: (keys ++ [.ofNat m] :: st)).length := by
    rw [length_cons, length_append, length_cons, hkeys]
    omega
  rw [checkMultisig, bind_apply_ok (needStack_ok (by simp)), bind_apply_ok (stacktop_ok rfl),
    bind_apply_ok (number_small h16 (by omega) _ _), getint_small h16,
    bind_apply_ok (failIf_neg (by simp only [MAX_PUBKEYS_PER_MULTISIG]; omega) _ _)]
  simp only [Int.toNat_natCast]
  rw [modify_bind_apply, get_bind_apply]
  dsimp only
  rw [bind_apply_ok (failIf_neg (by omega) _ _), bind_apply_ok (needStack_ok hlen),
    bind_apply_ok (htop _ rfl), bind_apply_ok (number_small (by omega) hpos _ _), getint_small (by omega),
    bind_apply_ok (failIf_neg (by omega) _ _), Int.toNat_natCast]
  rfl

theorem le_length_of_checkMultisigBody (hkeys : keys.length = n)
    (h : checkMultisigBody P flags checker false code n m ⟨[.ofNat n] :: (keys ++ [.ofNat m] :: st), [], [], count, code⟩ = .ok ⟨⟩ t) :
    m < st.length := by
  rw [checkMultisigBody, bind_needStack_ok] at h
  have hlen := h.1
  simp only [length_cons, length_append, hkeys] at hlen
  omega

theorem checkMultisigBody_eq (hkeys : keys.length = n) (hsigs : sigs.length = m)
    (hdelete : ∀ sig ∈ sigs, findAndDelete code (pushData sig) = code)
    (hkeysOk : ∀ key ∈ keys, checkPubKeyEncoding flags key = none)
    (hsigsOk : ∀ sig ∈ sigs, checkSignatureEncoding P flags sig = none)
    (hdummy : has flags .NULLDUMMY = true → dummy = []) :
    checkMultisigBody P flags checker false code n m
      ⟨[.ofNat n] :: (keys ++ [.ofNat m] :: (sigs ++ dummy :: rest)), [], [], count, code⟩ =
    .ok ⟨⟩ ⟨boolVch (greedy (fun sig key => checker.checkSig sig key code) sigs keys) :: rest,
      [], [], count, code⟩ := by
  have hall : [.ofNat n] :: (keys ++ [.ofNat m] :: (sigs ++ dummy :: rest)) =
      ([.ofNat n] :: keys ++ [.ofNat m] :: sigs) ++ dummy :: rest := by
    simp
  have hlen : ([.ofNat n] :: keys ++ [.ofNat m] :: sigs).length = 2 + n + 1 + m - 1 := by
    rw [length_append, length_cons, length_cons, hkeys, hsigs]
    omega
  have hsigsAt : sigs <+: ([.ofNat n] :: (keys ++ [.ofNat m] :: (sigs ++ dummy :: rest))).drop
      (2 + n) := by
    refine ⟨dummy :: rest, ?_⟩
    rw [show 2 + n = n + 1 + 1 by omega, drop_succ_cons, ← drop_drop,
      drop_left' hkeys]
    rfl
  have henough : 2 + n + 1 + m ≤
      ([.ofNat n] :: (keys ++ [.ofNat m] :: (sigs ++ dummy :: rest))).length := by
    rw [hall, length_append, hlen, length_cons]
    omega
  have hnull : ¬(has flags .NULLDUMMY = true ∧ dummy.length ≠ 0) := fun h =>
    h.2 (by rw [hdummy h.1]; rfl)
  have hdrop := dropSigs_eq (s := ⟨_, [], [], count, code⟩) sigs (2 + n) hsigsAt hdelete
  have hcheck : checkSigs P flags checker code keys.length sigs.length (2 + n + 1) (1 + 1) _ = _ :=
    checkSigs_eq (s := ⟨_, [], [], count, code⟩) keys sigs 1 (2 + n) (prefix_append _ _) hsigsAt
      hkeysOk hsigsOk
  rw [hkeys, hsigs] at hcheck
  rw [hsigs] at hdrop
  rw [checkMultisigBody, bind_apply_ok (needStack_ok henough), bind_apply_ok hdrop,
    bind_apply_ok hcheck, ← hlen, hall, bind_apply_ok (popstacks_eq _ _ _ _), popDummy, bind_assoc,
    bind_apply_ok (needStack_ok (by simp)), bind_assoc, bind_apply_ok (stacktop_ok rfl), bind_assoc,
    bind_apply_ok (failIf_neg hnull _ _)]
  rfl

end

end Utsuite.OpcodeRun
