import Utsuite.PushOnly
import Utsuite.ScriptRun

namespace Utsuite.PushAll

open ByteWords Transaction Script Interpreter Hoare ScriptBytes OpcodeRun ScriptRun PushOnly List
open ScriptSign (pushData pushAll)

section

variable {P : Primitives} {flags : BitVec 32} {checker : BaseSignatureChecker} {o : Operation}

def pushed (o : Operation) : Bytes :=
  if o.opcode ≤ OP_PUSHDATA4 then o.vch else serialize (o.opcode.toNat - (OP_1.toNat - 1) : Int)

theorem lookup_isSome (hpush : ¬opcode ≤ OP_PUSHDATA4) (h16 : opcode ≤ OP_16) :
    (caseLabels.lookup opcode).isSome ↔ opcode ≠ 0x50 :=
  byte_cases (p := fun opcode => ¬opcode ≤ OP_PUSHDATA4 → opcode ≤ OP_16 →
    ((caseLabels.lookup opcode).isSome ↔ opcode ≠ 0x50)) (by decide +kernel) opcode hpush h16

theorem step_small (hpush : ¬o.opcode ≤ OP_PUSHDATA4) (h16 : o.opcode ≤ OP_16) (hvch : o.vch = []) :
    step P flags checker o ⟨st, [], [], n, code⟩ = .ok ⟨⟩ t ↔
      o.opcode ≠ 0x50 ∧ st.length < 1000 ∧ t = ⟨pushed o :: st, [], [], n, code⟩ := by
  have hdispatch : dispatch P flags checker true o =
      if (caseLabels.lookup o.opcode).isSome then push (pushed o) else throw (.error .BAD_OPCODE) := by
    rw [dispatch, if_neg (fun h => hpush h.2), if_pos (.inl rfl), execute_of_le h16, pushNumber,
      pushed, if_neg hpush]
  rw [step, get_bind_apply, bind_failIf_ok, bind_apply_ok (countOp_push h16 _), bind_failIf_ok]
  simp only [all_nil, hdispatch, lookup_isSome hpush h16]
  by_cases hreserved : o.opcode = 0x50
  · rw [if_neg (not_not.mpr hreserved), bind_apply_error (throw_apply _ _)]
    simp [hreserved]
  · rw [if_pos hreserved, push, modify_bind_apply, sizeLimit_ok]
    simp only [hvch, length_nil, Nat.not_lt_zero, not_disabled_of_le h16, not_false_eq_true,
      true_and, length_cons, add_zero, Nat.succ_le_iff, gt_iff_lt, hreserved, ne_eq]

def Allowed (flags : BitVec 32) (o : Operation) : Prop :=
  (o.opcode ≤ OP_PUSHDATA4 → o.vch.length ≤ MAX_SCRIPT_ELEMENT_SIZE ∧ PushOk flags o) ∧
    o.opcode ≠ 0x50

theorem step_pushed (h16 : o.opcode ≤ OP_16) (hvch : ¬o.opcode ≤ OP_PUSHDATA4 → o.vch = []) :
    step P flags checker o ⟨st, [], [], n, code⟩ = .ok ⟨⟩ t ↔
      Allowed flags o ∧ st.length < 1000 ∧ t = ⟨pushed o :: st, [], [], n, code⟩ := by
  by_cases hpush : o.opcode ≤ OP_PUSHDATA4
  · have hne : o.opcode ≠ 0x50 := by
      rintro heq
      rw [heq] at hpush
      exact absurd hpush (by decide)
    rw [step_push hpush, pushed, if_pos hpush]
    simp only [Allowed, PushOk, hpush, true_implies, ne_eq, hne, not_false_eq_true, and_true,
      and_assoc]
  · rw [step_small hpush h16 (hvch hpush)]
    simp only [Allowed, hpush, false_implies, true_and]

theorem evalCode_pushed (hpush : (decode script).isPushOnly = true)
    (h : evalCode P flags checker (decode script) ⟨st, [], [], n, code⟩ = .ok ⟨⟩ t) :
    (∀ o ∈ operations (decode script), Allowed flags o) ∧
      t = ⟨((operations (decode script)).map pushed).reverse ++ st, [], [], n, code⟩ := by
  induction hcode : decode script generalizing script st with
  | finished =>
    rw [hcode] at h
    cases h
    exact ⟨nofun, rfl⟩
  | bad pc =>
    rw [hcode] at hpush
    cases hpush
  | op o rest ih =>
    obtain ⟨hget, hrest⟩ := getOp_of_decode hcode
    rw [hcode] at h hpush
    obtain ⟨h16, hpush⟩ := isPushOnly_op hpush
    obtain ⟨s, hstep, hrun⟩ := evalCode_op.mp h
    obtain ⟨hallowed, -, rfl⟩ := (step_pushed h16 fun hlong => vch_of_getOp hget hlong).mp hstep
    rw [← hrest] at hpush hrun
    obtain ⟨hall, rfl⟩ := ih hpush hrun hrest
    refine ⟨forall_mem_cons.mpr ⟨hallowed, hall⟩, ?_⟩
    rw [operations, map_cons, reverse_cons, append_assoc]
    rfl

end

/-- An operation with the opcode of `operator<<` stands in the script as `operator<<` writes it. -/
theorem pushData_of_getOp (h : getOp pc = .ok o) (hop : o.opcode = pushOpcode o.vch) :
    pc = pushData o.vch ++ o.pc := by
  obtain ⟨rest, rfl, ⟨-, hsize⟩ | ⟨hle, hvch, -⟩⟩ := getOp_ok h
  · rw [pushSize] at hsize
    rw [pushOpcode] at hop
    rw [pushData]
    split_ifs at hop ⊢ with h1 h2 h3 <;> rw [hop] at hsize ⊢
    · have hbyte := toNat_ofNat (Nat.lt_trans h1 (by decide))
      rw [if_pos (by rw [UInt8.lt_iff_toNat_lt, hbyte]; exact h1)] at hsize
      obtain ⟨-, rfl⟩ := Prod.mk.inj (Except.ok.inj hsize)
      rfl
    · rw [if_neg (by decide), if_pos rfl] at hsize
      rw [readSize_ok hsize]
      simp [leBytes]
    · rw [if_neg (by decide), if_neg (by decide), if_pos rfl] at hsize
      rw [readSize_ok hsize]
      simp
    · rw [if_neg (by decide), if_neg (by decide), if_neg (by decide)] at hsize
      rw [readSize_ok hsize]
      simp
  · have hpush := pushOpcode_le []
    rw [← hvch, ← hop] at hpush
    exact absurd hpush hle

theorem opcode_of_minimal (hpush : opcode ≤ OP_PUSHDATA4)
    (hlen : vch.length ≤ MAX_SCRIPT_ELEMENT_SIZE) (h : checkMinimalPush vch opcode = true) :
    opcode = pushOpcode vch := by
  have hsmall : ∀ b : UInt8, 1 ≤ b → b ≤ 16 → ¬OP_1 + (b - 1) ≤ OP_PUSHDATA4 :=
    byte_cases (by decide +kernel)
  rw [checkMinimalPush] at h
  rw [MAX_SCRIPT_ELEMENT_SIZE] at hlen
  rw [pushOpcode]
  split_ifs at h with h0 hnumber hminus h75 h255 h65535
  · rw [h0, if_pos (by decide)]
    exact beq_iff_eq.mp h
  · rw [beq_iff_eq.mp h] at hpush
    exact absurd hpush (hsmall _ hnumber.2.1 hnumber.2.2)
  · rw [beq_iff_eq.mp h] at hpush
    exact absurd hpush (by decide)
  · rw [if_pos (by omega), ← beq_iff_eq.mp h, UInt8.ofNat_toNat]
  · rw [if_neg (by omega), if_pos h255]
    exact beq_iff_eq.mp h
  · rw [if_neg (by omega), if_neg (by omega), if_pos h65535]
    exact beq_iff_eq.mp h
  · omega

theorem not_minimal_of_number (hpush : ¬o.opcode ≤ OP_PUSHDATA4) (h16 : o.opcode ≤ OP_16)
    (hreserved : o.opcode ≠ 0x50) :
    checkMinimalPush (pushed o) (pushOpcode (pushed o)) = false := by
  rw [pushed, if_neg hpush]
  exact byte_cases (p := fun opcode => ¬opcode ≤ OP_PUSHDATA4 → opcode ≤ OP_16 → opcode ≠ 0x50 →
    checkMinimalPush (serialize (opcode.toNat - (OP_1.toNat - 1) : Int))
      (pushOpcode (serialize (opcode.toNat - (OP_1.toNat - 1) : Int))) = false)
    (by decide +kernel) o.opcode hpush h16 hreserved

theorem pushes_of_operations (hflag : has flags .MINIMALDATA = true)
    (hpush : (decode script).isPushOnly = true)
    (hall : ∀ o ∈ operations (decode script), Allowed flags o)
    (hdata : ∀ o ∈ operations (decode script), o.opcode ≤ OP_PUSHDATA4) :
    pushes ((operations (decode script)).map pushed) = script := by
  induction hcode : decode script generalizing script with
  | finished =>
    rw [eq_nil_of_decode hcode]
    rfl
  | bad pc =>
    rw [hcode] at hpush
    cases hpush
  | op o rest ih =>
    obtain ⟨hget, hrest⟩ := getOp_of_decode hcode
    rw [hcode] at hpush hall hdata
    obtain ⟨-, hpush⟩ := isPushOnly_op hpush
    obtain ⟨⟨hallowed, -⟩, hall⟩ := forall_mem_cons.mp hall
    obtain ⟨ho, hdata⟩ := forall_mem_cons.mp hdata
    obtain ⟨hlen, hmin⟩ := hallowed ho
    subst hrest
    rw [operations, map_cons, pushes_cons, ih hpush hall hdata rfl, pushed, if_pos ho]
    exact (pushData_of_getOp hget (opcode_of_minimal ho hlen (hmin hflag))).symm

theorem operations_pushes (values : List Bytes) (h : ∀ b ∈ values, b.length < 2 ^ 32) :
    ∀ b ∈ values, ∃ o ∈ operations (decode (pushes values)), o.opcode = pushOpcode b ∧ o.vch = b := by
  induction values with
  | nil => nofun
  | cons v values ih =>
    obtain ⟨hv, hvalues⟩ := forall_mem_cons.mp h
    rw [pushes_cons, decode_pushData v _ hv, operations]
    intro b hb
    obtain rfl | hb := mem_cons.mp hb
    · exact ⟨_, mem_cons_self, rfl, rfl⟩
    · obtain ⟨o, ho, heq⟩ := ih hvalues b hb
      exact ⟨o, mem_cons_of_mem _ ho, heq⟩

theorem length_pushed_le (h : Allowed flags o) : (pushed o).length ≤ MAX_SCRIPT_ELEMENT_SIZE := by
  rw [pushed]
  split_ifs with hpush
  · exact (h.1 hpush).1
  · exact InterpreterSafety.length_serialize_le _

section

variable {P : Primitives} {flags : BitVec 32} {checker : BaseSignatureChecker}

theorem pushOnly_operations (h : code.isPushOnly = true) :
    ∀ o ∈ operations code, o.opcode ≤ OP_16 := by
  induction code with
  | finished => nofun
  | bad pc => nofun
  | op o rest ih =>
    obtain ⟨h16, hrest⟩ := isPushOnly_op h
    exact forall_mem_cons.mpr ⟨h16, ih hrest⟩

theorem number_iff (h16 : opcode ≤ OP_16) (hreserved : opcode ≠ 0x50) :
    (opcode = OP_1NEGATE ∨ OP_1 ≤ opcode ∧ opcode ≤ OP_16) ↔ ¬opcode ≤ OP_PUSHDATA4 :=
  byte_cases (p := fun opcode => opcode ≤ OP_16 → opcode ≠ 0x50 →
    ((opcode = OP_1NEGATE ∨ OP_1 ≤ opcode ∧ opcode ≤ OP_16) ↔ ¬opcode ≤ OP_PUSHDATA4))
    (by decide +kernel) opcode h16 hreserved

theorem minimal_of_pushes (hflag : has flags .MINIMALDATA = true)
    (hlen : ∀ b ∈ values, b.length ≤ MAX_SCRIPT_ELEMENT_SIZE)
    (heval : evalScript P flags checker (pushes values) [] = .ok ⟨⟩ stack) :
    ∀ b ∈ values, checkMinimalPush b (pushOpcode b) = true := by
  intro b hb
  have hshort : ∀ b ∈ values, b.length < 2 ^ 32 := fun b hb =>
    lt_of_le_of_lt (hlen b hb) (by decide)
  obtain ⟨-, t, hrun, -, -⟩ := evalScript_ok.mp heval
  obtain ⟨hall, -⟩ := evalCode_pushed (isPushOnly_pushes values hshort) hrun
  obtain ⟨o, ho, hop, hvch⟩ := operations_pushes values hshort b hb
  have hmin := ((hall o ho).1 (hop ▸ pushOpcode_le b)).2 hflag
  rw [hop, hvch] at hmin
  exact hmin

/-- Pushing a stack again gives the same stack under `MINIMALDATA` exactly if the script pushes no
number by an opcode of its own. -/
theorem pushAll_keeps_valid_iff (hflag : has flags .MINIMALDATA = true) {scriptSig : CScript}
    {stack : List Bytes} (hpush : isPushOnly scriptSig = true)
    (heval : evalScript P flags checker scriptSig [] = .ok ⟨⟩ stack) :
    evalScript P flags checker (pushAll stack) [] = .ok ⟨⟩ stack ↔
      ∀ o ∈ operations (decode scriptSig), ¬(o.opcode = OP_1NEGATE ∨
        OP_1 ≤ o.opcode ∧ o.opcode ≤ OP_16) := by
  obtain ⟨-, t, hrun, -, hstack⟩ := evalScript_ok.mp heval
  obtain ⟨hall, rfl⟩ := evalCode_pushed hpush hrun
  rw [append_nil] at hstack
  have hpushAll : pushAll stack = pushes ((operations (decode scriptSig)).map pushed) := by
    rw [pushAll, ← hstack, reverse_reverse]
    rfl
  constructor
  · intro hagain o ho hnumber
    have h16 := pushOnly_operations hpush o ho
    have hreserved := (hall o ho).2
    have hlen : ∀ b ∈ (operations (decode scriptSig)).map pushed,
        b.length ≤ MAX_SCRIPT_ELEMENT_SIZE := by
      rw [forall_mem_map]
      exact fun o ho => length_pushed_le (hall o ho)
    rw [hpushAll] at hagain
    have hmin := minimal_of_pushes hflag hlen hagain (pushed o) (mem_map_of_mem ho)
    rw [not_minimal_of_number ((number_iff h16 hreserved).mp hnumber) h16 hreserved] at hmin
    exact Bool.false_ne_true hmin
  · intro hdata
    have hplain : ∀ o ∈ operations (decode scriptSig), o.opcode ≤ OP_PUSHDATA4 := by
      intro o ho
      have h16 := pushOnly_operations hpush o ho
      exact not_not.mp fun h => hdata o ho ((number_iff h16 (hall o ho).2).mpr h)
    rw [hpushAll, pushes_of_operations hflag hpush hall hplain]
    exact heval

theorem pushAll_keeps_valid_pushes :
    evalScript InterpreterSafety.constantHashes 0x40 .refusing [0x02, 0x07, 0x08, 0x00] [] =
      .ok ⟨⟩ [[], [0x07, 0x08]] ∧
    (evalScript InterpreterSafety.constantHashes 0x40 .refusing (pushAll [[], [0x07, 0x08]]) [] =
        .ok ⟨⟩ [[], [0x07, 0x08]] ↔
      ∀ o ∈ operations (decode [0x02, 0x07, 0x08, 0x00]), ¬(o.opcode = OP_1NEGATE ∨
        OP_1 ≤ o.opcode ∧ o.opcode ≤ OP_16)) :=
  ⟨rfl, pushAll_keeps_valid_iff (by decide) (by decide) rfl⟩

/-- `OP_1` becomes a push of the byte 1, which is not minimal and is refused. -/
theorem number_pushed_again :
    isPushOnly [OP_1] = true ∧
    evalScript InterpreterSafety.constantHashes 0x40 .refusing [OP_1] [] = .ok ⟨⟩ [[0x01]] ∧
    evalScript InterpreterSafety.constantHashes 0x40 .refusing (pushAll [[0x01]]) [] =
      .error (.error .MINIMALDATA) [] :=
  ⟨rfl, rfl, rfl⟩

end

end Utsuite.PushAll
