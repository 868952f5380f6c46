import Utsuite.Standard

namespace Utsuite.ScriptBytes

open ByteWords Transaction Script Standard List
open ScriptSign (pushData)

def pushOpcode (b : Bytes) : opcodetype :=
  if b.length < 0x4c then .ofNat b.length
  else if b.length ≤ 0xff then OP_PUSHDATA1
  else if b.length ≤ 0xffff then OP_PUSHDATA2
  else OP_PUSHDATA4

theorem toNat_ofNat (h : n < 256) : (UInt8.ofNat n).toNat = n :=
  UInt8.toNat_ofNat_of_lt h

theorem pushOpcode_le (b : Bytes) : pushOpcode b ≤ OP_PUSHDATA4 := by
  rw [pushOpcode]
  split_ifs with hshort
  · rw [UInt8.le_iff_toNat_le, toNat_ofNat (by omega)]
    exact Nat.le_trans hshort.le (by decide)
  all_goals decide

theorem readSize_eq (width : Nat) (hn : n < 256 ^ width) (rest : CScript) :
    readSize width (leBytes width n ++ rest) = .ok (n, rest) := by
  have hlen : (leBytes width n).length = width := leBytes_length width n
  rw [readSize, if_neg (by rw [length_append]; omega), take_left' hlen,
    drop_left' hlen, leValue_leBytes, Nat.mod_eq_of_lt hn]

theorem pushData_eq (b : Bytes) (h : b.length < 2 ^ 32) :
    ∃ size, pushData b = pushOpcode b :: (size ++ b) ∧
      ∀ rest, pushSize (pushOpcode b) (size ++ rest) = .ok (b.length, rest) := by
  rw [pushData, pushOpcode]
  split_ifs with h1 h2 h3
  · refine ⟨[], rfl, fun rest => ?_⟩
    have hbyte := toNat_ofNat (lt_trans h1 (by decide))
    rw [pushSize, if_pos, hbyte, nil_append]
    rw [UInt8.lt_iff_toNat_lt, hbyte]
    exact h1
  · have hsize := readSize_eq 1 (n := b.length) (by omega)
    refine ⟨leBytes 1 b.length, rfl, fun rest => ?_⟩
    rw [pushSize, if_neg (by decide), if_pos rfl, hsize]
  · have hsize := readSize_eq 2 (n := b.length) (by omega)
    refine ⟨_, rfl, fun rest => ?_⟩
    rw [pushSize, if_neg (by decide), if_neg (by decide), if_pos rfl, hsize]
  · have hsize := readSize_eq 4 (n := b.length) (by omega)
    refine ⟨_, rfl, fun rest => ?_⟩
    rw [pushSize, if_neg (by decide), if_neg (by decide), if_neg (by decide), hsize]

theorem getOp_pushData (b rest : CScript) (h : b.length < 2 ^ 32) :
    getOp (pushData b ++ rest) = .ok ⟨pushOpcode b, b, rest⟩ := by
  obtain ⟨size, hpush, hsize⟩ := pushData_eq b h
  rw [hpush, cons_append, append_assoc, getOp, if_pos (pushOpcode_le b), hsize]
  dsimp only
  rw [if_neg (by rw [length_append]; omega), take_left, drop_left]

theorem decode_pushData (b rest : CScript) (h : b.length < 2 ^ 32) :
    decode (pushData b ++ rest) = .op ⟨pushOpcode b, b, rest⟩ (decode rest) :=
  decode_ok (getOp_pushData b rest h)

def pushes (values : List Bytes) : CScript := values.flatMap pushData

theorem pushes_cons (b : Bytes) (values : List Bytes) :
    pushes (b :: values) = pushData b ++ pushes values := rfl

theorem pushes_singleton (b : Bytes) : pushes [b] = pushData b := flatMap_singleton pushData b

theorem pushes_append (xs ys : List Bytes) : pushes (xs ++ ys) = pushes xs ++ pushes ys :=
  flatMap_append

theorem isPushOnly_pushes (values : List Bytes) (h : ∀ b ∈ values, b.length < 2 ^ 32) :
    isPushOnly (pushes values) = true := by
  induction values with
  | nil => rfl
  | cons b values ih =>
    obtain ⟨hb, hvalues⟩ := forall_mem_cons.mp h
    have hop : ¬pushOpcode b > OP_16 :=
      UInt8.not_lt.mpr (UInt8.le_trans (pushOpcode_le b) (by decide))
    rw [pushes_cons, isPushOnly, decode_pushData b _ hb, Code.isPushOnly, if_neg hop]
    exact ih hvalues

theorem length_pushData_le (b : Bytes) (h : b.length ≤ 520) : (pushData b).length ≤ b.length + 3 := by
  rw [pushData]
  split_ifs <;> simp only [length_cons, length_append, leBytes_length] <;> omega

theorem length_pushes_le (values : List Bytes) (h : ∀ b ∈ values, b.length ≤ 520) :
    (pushes values).length ≤ 523 * values.length := by
  induction values with
  | nil => exact Nat.zero_le _
  | cons b values ih =>
    obtain ⟨hb, hvalues⟩ := forall_mem_cons.mp h
    have hlen := length_pushData_le b hb
    have hrest := ih hvalues
    rw [pushes_cons, length_append, length_cons]
    omega

section

def operations : Code → List Operation
  | .finished => []
  | .bad _ => []
  | .op o rest => o :: operations rest

theorem operations_ofOps (ops : List Operation) : operations (ofOps ops) = ops := by
  induction ops with
  | nil => rfl
  | cons o ops ih => rw [ofOps_cons, operations, ih]

theorem getOp_of_decode (h : decode pc = .op o rest) : getOp pc = .ok o ∧ decode o.pc = rest := by
  cases pc with
  | nil => cases h
  | cons opcode pc =>
    cases hop : getOp (opcode :: pc) with
    | error pc' =>
      rw [decode_error hop] at h
      cases h
    | ok o' =>
      rw [decode_ok hop] at h
      cases h
      exact ⟨rfl, rfl⟩

theorem eq_nil_of_decode (h : decode pc = .finished) : pc = [] := by
  cases pc with
  | nil => rfl
  | cons opcode pc =>
    cases hop : getOp (opcode :: pc) with
    | error pc' =>
      rw [decode_error hop] at h
      cases h
    | ok o' =>
      rw [decode_ok hop] at h
      cases h

theorem vch_of_getOp (h : getOp pc = .ok o) (hop : ¬o.opcode ≤ OP_PUSHDATA4) : o.vch = [] := by
  obtain ⟨size, -, -, hnil⟩ := getOp_bytes h
  exact (append_eq_nil_iff.mp (hnil hop)).2

theorem getOp_length_le (h : getOp pc = .ok o) : pc.length ≤ o.vch.length + 5 + o.pc.length := by
  obtain ⟨size, hsize, rfl, -⟩ := getOp_bytes h
  simp only [cons_append, length_cons, length_append]
  omega

variable {script : CScript} {ops : List Operation}

theorem vch_of_ofOps (h : decode script = ofOps ops) (ho : o ∈ ops) (hop : ¬o.opcode ≤ OP_PUSHDATA4) :
    o.vch = [] := by
  induction ops generalizing script with
  | nil => cases ho
  | cons o' ops ih =>
    obtain ⟨hget, hrest⟩ := getOp_of_decode h
    obtain rfl | ho := mem_cons.mp ho
    · exact vch_of_getOp hget hop
    · exact ih hrest ho

theorem length_le_of_ofOps (h : decode script = ofOps ops) (hvch : ∀ o ∈ ops, o.vch.length ≤ 65) :
    script.length ≤ 70 * ops.length := by
  induction ops generalizing script with
  | nil =>
    rw [eq_nil_of_decode h]
    exact Nat.zero_le _
  | cons o ops ih =>
    obtain ⟨hget, hrest⟩ := getOp_of_decode h
    obtain ⟨ho, hops⟩ := forall_mem_cons.mp hvch
    have hlen := getOp_length_le hget
    have htail := ih hrest hops
    rw [length_cons]
    omega

theorem length_ops_le (h : decode script = ofOps ops) : ops.length ≤ script.length := by
  induction ops generalizing script with
  | nil => exact Nat.zero_le _
  | cons o ops ih =>
    obtain ⟨hget, hrest⟩ := getOp_of_decode h
    have hshorter := getOp_pc_lt hget
    have htail := ih hrest
    rw [length_cons]
    omega

theorem opcode_le_of_vch (hcode : decode script = ofOps ops) (ho : o ∈ ops) (hvch : o.vch ≠ []) :
    o.opcode ≤ OP_PUSHDATA4 :=
  by_contra fun h => hvch (vch_of_ofOps hcode ho h)

theorem isKeySize_iff : isKeySize vch = true ↔ 33 ≤ vch.length ∧ vch.length ≤ 65 := by
  rw [isKeySize, Bool.and_eq_true, decide_eq_true_iff, decide_eq_true_iff]

theorem ne_nil_of_isKeySize (h : isKeySize vch = true) : vch ≠ [] := by
  rintro rfl
  cases h

theorem not_push_of_number (h : decodeOP_N opcode = some k) (hk : 1 ≤ k) :
    ¬opcode ≤ OP_PUSHDATA4 := by
  rw [decodeOP_N] at h
  split_ifs at h with h0 hrange
  · cases h
    omega
  · exact fun hpush => UInt8.not_lt.mpr (UInt8.le_trans hrange.1 hpush) (by decide)

end

def Pushes (code : Code) (vch : Bytes) : Prop :=
  ∃ o ∈ operations code, o.opcode ≤ OP_PUSHDATA4 ∧ o.vch = vch

theorem pushes_of_take (hsig : sig.length < 2 ^ 32)
    (h : pc.take (pushData sig).length = pushData sig) : Pushes (decode pc) sig := by
  have hsplit : pc = pushData sig ++ pc.drop (pushData sig).length := by
    conv_lhs => rw [← take_append_drop (pushData sig).length pc, h]
  rw [hsplit, decode_pushData sig _ hsig]
  exact ⟨_, mem_cons_self, pushOpcode_le sig, rfl⟩

theorem skipCopies_eq (hsig : sig.length < 2 ^ 32) (h : ¬Pushes (decode pc) sig) (rounds : Nat) :
    skipCopies (pushData sig) rounds pc = (pc, 0) := by
  cases rounds with
  | zero => rfl
  | succ rounds =>
    rw [skipCopies, if_neg]
    exact fun hcopy => h (pushes_of_take hsig hcopy.2)

theorem deleteLoop_eq (hsig : sig.length < 2 ^ 32) (rounds : Nat) (h : ¬Pushes (decode pc) sig) :
    (deleteLoop (pushData sig) rounds pc).2 = 0 := by
  induction rounds generalizing pc with
  | zero => rfl
  | succ rounds ih =>
    rw [deleteLoop, skipCopies_eq hsig h]
    dsimp only
    split
    · rfl
    · next o hop =>
        have hrest : ¬Pushes (decode o.pc) sig := by
          rintro ⟨o', ho', hpush⟩
          rw [decode_ok hop] at h
          exact h ⟨o', mem_cons_of_mem _ ho', hpush⟩
        simpa using ih hrest

theorem findAndDelete_eq (hsig : sig.length < 2 ^ 32) (h : ¬Pushes (decode script) sig) :
    findAndDelete script (pushData sig) = script := by
  rw [findAndDelete]
  split
  · rfl
  · dsimp only
    rw [if_neg]
    rw [deleteLoop_eq hsig _ h]
    exact lt_irrefl 0

end Utsuite.ScriptBytes
