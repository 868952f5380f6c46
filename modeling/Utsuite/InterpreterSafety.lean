import Utsuite.Interpreter

namespace Utsuite.InterpreterSafety

open ByteWords Transaction Script Interpreter Hoare List
open ScriptSign (pushData)

/-- The reasons to stop that the source provides for: an error with a name, or a number that is
refused. -/
def Expected : Stop → Prop
  | .error serror => serror ≠ .UNKNOWN_ERROR
  | .scriptnum_error => True
  | _ => False

structure Deep (n : Nat) (s : Machine) : Prop where
  le_length : n ≤ s.stack.length
  short : ∀ vch ∈ s.stack, vch.length ≤ MAX_SCRIPT_ELEMENT_SIZE
  alt_short : ∀ vch ∈ s.altstack, vch.length ≤ MAX_SCRIPT_ELEMENT_SIZE

abbrev Takes {α : Type} (n : Nat) (m : Eval α) (Q : α → Machine → Prop) : Prop :=
  Triple (Deep n) m Q fun e _ => Expected e

/-- From a stack of short elements the code stops as expected or leaves short elements again. -/
abbrev Safe (m : Eval PUnit) : Prop := Takes 0 m fun _ => Deep 0

variable {n k : Nat} {serror : ScriptError} {opcode : opcodetype}

theorem Deep.mono (h : Deep n s) (hk : k ≤ n) : Deep k s :=
  ⟨hk.trans h.le_length, h.short, h.alt_short⟩

theorem takes_mono (h : Takes k m Q) (hk : k ≤ n) : Takes n m Q :=
  h.pre fun _ hs => hs.mono hk

theorem takes_forget (h : Takes n m fun _ => Deep k) : Takes n m fun _ => Deep 0 :=
  h.post fun _ _ hs => hs.mono (Nat.zero_le k)

theorem fail_takes (h : serror ≠ .UNKNOWN_ERROR) : Takes n (throw (.error serror) : Eval α) Q :=
  .throw fun _ _ => h

theorem failIf_takes [Decidable c] (h : serror ≠ .UNKNOWN_ERROR) :
    Takes n (failIf c serror) fun _ s => ¬c ∧ Deep n s :=
  .ite (fun _ => fail_takes h) fun hc => .pure fun _ hs => ⟨hc, hs⟩

theorem failIf_keeps [Decidable c] (h : serror ≠ .UNKNOWN_ERROR) :
    Takes n (failIf c serror) fun _ => Deep n :=
  (failIf_takes h).post fun _ _ hs => hs.2

theorem failWith_keeps (h : ∀ serror, o = some serror → serror ≠ .UNKNOWN_ERROR) :
    Takes n (failWith o) fun _ => Deep n := by
  cases o with
  | none => exact .pure fun _ hs => hs
  | some serror => exact fail_takes (h serror rfl)

theorem needStack_takes (h : serror ≠ .UNKNOWN_ERROR) :
    Takes n (needStack k serror) fun _ => Deep k := by
  refine .get_bind fun s hs => .ite (fun _ => .throw fun _ _ => h) fun hc => ?_
  refine .pure fun t ht => ?_
  rw [ht]
  exact ⟨not_lt.mp hc, hs.short, hs.alt_short⟩

theorem stacktop_takes (hi : i < n) :
    Takes n (stacktop (i + 1)) fun vch s => vch.length ≤ MAX_SCRIPT_ELEMENT_SIZE ∧ Deep n s := by
  refine .get_bind fun s hs => ?_
  have hlt : i < s.stack.length := lt_of_lt_of_le hi hs.le_length
  rw [getElem?_eq_getElem hlt]
  refine .pure fun t ht => ?_
  rw [ht]
  exact ⟨hs.short _ (getElem_mem hlt), hs⟩

theorem need_takes (h : serror ≠ .UNKNOWN_ERROR) (hf : Takes k (f ⟨⟩) Q) :
    Takes n (needStack k serror >>= f) Q :=
  (needStack_takes h).bind fun _ => hf

theorem top_takes (hi : i < n)
    (hf : ∀ vch, vch.length ≤ MAX_SCRIPT_ELEMENT_SIZE → Takes n (f vch) Q) :
    Takes n (stacktop (i + 1) >>= f) Q :=
  (stacktop_takes hi).bind_fact hf

theorem push_takes (hvch : vch.length ≤ MAX_SCRIPT_ELEMENT_SIZE) :
    Takes n (push vch) fun _ => Deep (n + 1) :=
  .modify fun _ hs => ⟨Nat.succ_le_succ hs.le_length,
    forall_mem_cons.mpr ⟨hvch, hs.short⟩, hs.alt_short⟩

theorem popstack_takes : Takes (n + 1) popstack fun _ => Deep n := by
  refine .get_bind fun s hs => ?_
  obtain ⟨stack, altstack, vfExec, nOpCount, pbegincodehash⟩ := s
  obtain ⟨hlen, hshort, halt⟩ := hs
  cases stack with
  | nil => cases hlen
  | cons vch stack =>
    exact .set fun _ _ => ⟨Nat.le_of_succ_le_succ hlen,
      (forall_mem_cons.mp hshort).2, halt⟩

theorem popstacks_takes (k : Nat) : Takes (n + k) (popstacks k) fun _ => Deep n := by
  induction k with
  | zero => exact .pure fun _ hs => hs
  | succ k ih => exact popstack_takes.bind fun _ => ih

theorem erase_takes (hi : i ≤ n) (hij : j ≤ i) :
    Takes n (erase i j) fun _ => Deep (n - (i - j)) := by
  refine .get_bind fun s hs => ?_
  have hlen := hs.le_length
  refine .ite (fun hlt => absurd hlt (by omega)) fun _ => .set fun _ _ => ⟨?_, ?_, ?_⟩
  · simp only [length_append, length_take, length_drop]
    omega
  · intro vch hvch
    rcases mem_append.mp hvch with hvch | hvch
    · exact hs.short vch (mem_of_mem_take hvch)
    · exact hs.short vch (mem_of_mem_drop hvch)
  · exact hs.alt_short

theorem insert_takes (hi : i ≤ n) (hvch : vch.length ≤ MAX_SCRIPT_ELEMENT_SIZE) :
    Takes n (insert i vch) fun _ => Deep (n + 1) := by
  refine .get_bind fun s hs => ?_
  have hlen := hs.le_length
  refine .ite (fun hlt => absurd hlt (by omega)) fun _ => .set fun _ _ => ⟨?_, ?_, ?_⟩
  · simp only [length_append, length_take, length_cons, length_drop]
    omega
  · intro v hv
    rcases mem_append.mp hv with hv | hv
    · exact hs.short v (mem_of_mem_take hv)
    · rcases mem_cons.mp hv with rfl | hv
      · exact hvch
      · exact hs.short v (mem_of_mem_drop hv)
  · exact hs.alt_short

theorem short_set {l : List Bytes} {i : Nat} {vch : Bytes}
    (h : ∀ v ∈ l, v.length ≤ MAX_SCRIPT_ELEMENT_SIZE)
    (hvch : vch.length ≤ MAX_SCRIPT_ELEMENT_SIZE) :
    ∀ v ∈ l.set i vch, v.length ≤ MAX_SCRIPT_ELEMENT_SIZE := by
  intro v hv
  rcases mem_or_eq_of_mem_set hv with hv | rfl
  · exact h v hv
  · exact hvch

theorem swapTops_takes {i j : Nat} (hi : i < n) (hj : j < n) :
    Takes n (swapTops (i + 1) (j + 1)) fun _ => Deep n := by
  refine (stacktop_takes hi).bind_fact fun x hx => ?_
  refine (stacktop_takes hj).bind_fact fun y hy => ?_
  refine .modify fun s hs => ⟨?_, short_set (short_set hs.short hy) hx, hs.alt_short⟩
  simpa only [length_set] using hs.le_length

theorem assert_keeps [Decidable c] (h : c) : Takes n (assert c) fun _ => Deep n :=
  .ite (fun _ => .pure fun _ hs => hs) fun hc => absurd h hc

theorem length_magnitude_le (width n : Nat) : (magnitude width n).length ≤ width := by
  induction width generalizing n with
  | zero => exact le_rfl
  | succ width ih =>
    rw [magnitude]
    split_ifs
    · exact Nat.zero_le _
    · exact Nat.succ_le_succ (ih _)

theorem length_serialize_le (value : Int) :
    (serialize value).length ≤ MAX_SCRIPT_ELEMENT_SIZE := by
  have h := length_magnitude_le 8 value.natAbs
  rw [MAX_SCRIPT_ELEMENT_SIZE, serialize]
  dsimp only
  split_ifs
  · exact Nat.zero_le _
  · rw [length_append, length_singleton]
    omega
  · rw [length_append, length_singleton]
    omega
  · rw [length_append, length_dropLast, length_singleton]
    omega
  · omega

theorem length_boolVch_le (b : Bool) : (boolVch b).length ≤ MAX_SCRIPT_ELEMENT_SIZE := by
  cases b <;> decide

theorem natAbs_setVch_le (vch : Bytes) : (setVch vch).natAbs ≤ 256 ^ vch.length := by
  have hlt := leValue_lt vch
  rw [setVch]
  split
  · exact Nat.zero_le _
  case h_2 last hlast =>
    have hpos : vch.length = vch.length - 1 + 1 := by
      cases vch with
      | nil => cases hlast
      | cons => rfl
    have hpow : 256 ^ vch.length = 256 * 256 ^ (vch.length - 1) := by
      conv_lhs => rw [hpos, pow_succ']
    have hcast : ((256 : Int) ^ (vch.length - 1)) = ((256 ^ (vch.length - 1) : Nat) : Int) := by
      push_cast
      rfl
    split_ifs
    · rw [hcast]
      omega
    · omega

theorem number_takes (hmax : nMaxNumSize ≤ 5) :
    Takes n (number vch fRequireMinimal nMaxNumSize) fun bn s => bn.natAbs ≤ 2 ^ 40 ∧ Deep n s := by
  rw [number, scriptNum]
  split_ifs with hlong hminimal
  · exact .throw fun _ _ => trivial
  · exact .throw fun _ _ => trivial
  · refine .pure fun s hs => ⟨(natAbs_setVch_le vch).trans ?_, hs⟩
    calc 256 ^ vch.length ≤ 256 ^ 5 := Nat.pow_le_pow_right (by decide) (by omega)
      _ = 2 ^ 40 := by decide

theorem topNumber_takes (hi : i < n) (hmax : nMaxNumSize ≤ 5)
    (hf : ∀ bn, bn.natAbs ≤ 2 ^ 40 → Takes n (f bn) Q) :
    Takes n (stacktop (i + 1) >>= fun vch => number vch fRequireMinimal nMaxNumSize >>= f) Q :=
  top_takes hi fun _ _ => (number_takes hmax).bind_fact hf

theorem int64_keeps (ha : a.natAbs ≤ 2 ^ 40) (hb : b.natAbs ≤ 2 ^ 40) :
    Takes n (int64 (a + b)) fun _ => Deep n :=
  .ite (fun _ => .pure fun _ hs => hs) fun hc => absurd hc (by omega)

theorem addAssign_keeps (ha : a.natAbs ≤ 2 ^ 40) : Takes n (addAssign a 1) fun _ => Deep n :=
  (assert_keeps (by omega)).bind fun _ => .pure fun _ hs => hs

theorem subAssign_keeps (ha : a.natAbs ≤ 2 ^ 40) : Takes n (subAssign a 1) fun _ => Deep n :=
  (assert_keeps (by omega)).bind fun _ => .pure fun _ hs => hs

theorem negate_keeps (ha : a.natAbs ≤ 2 ^ 40) : Takes n (negate a) fun _ => Deep n :=
  (assert_keeps (by omega)).bind fun _ => .pure fun _ hs => hs

theorem mem_caseLabels (h : caseLabels.lookup opcode = some c) : (opcode, c) ∈ caseLabels := by
  obtain ⟨front, back, heq, -⟩ := lookup_eq_some_iff.mp h
  rw [heq]
  exact mem_append_right front mem_cons_self

theorem labels_numeric (h : caseLabels.lookup opcode = some .numeric) :
    opcode ∈ [0x8b, 0x8c, 0x8f, 0x90, 0x91, 0x92] := by
  simpa [caseLabels] using mem_caseLabels h

theorem labels_numericPair (h : caseLabels.lookup opcode = some .numericPair) :
    opcode ∈ [0x93, 0x94, 0x9a, 0x9b, 0x9c, 0x9d, 0x9e, 0x9f, 0xa0, 0xa1, 0xa2, 0xa3, 0xa4] := by
  simpa [caseLabels] using mem_caseLabels h

theorem numericResult_keeps (hbn : bn.natAbs ≤ 2 ^ 40)
    (h : opcode ∈ [0x8b, 0x8c, 0x8f, 0x90, 0x91, 0x92]) :
    Takes n (numericResult opcode bn) fun _ => Deep n := by
  have hpure : ∀ b : Int, Takes n (pure b : Eval Int) fun _ => Deep n :=
    fun b => .pure fun _ hs => hs
  rw [numericResult]
  split_ifs with h1 h2 h3 h4 h5 h6 h7
  · exact addAssign_keeps hbn
  · exact subAssign_keeps hbn
  · exact negate_keeps hbn
  · exact negate_keeps hbn
  · exact hpure _
  · exact hpure _
  · exact hpure _
  · simp [h1, h2, h3, h4, h6, h7] at h

theorem numericPairResult_keeps (h1 : bn1.natAbs ≤ 2 ^ 40) (h2 : bn2.natAbs ≤ 2 ^ 40)
    (h : opcode ∈ [0x93, 0x94, 0x9a, 0x9b, 0x9c, 0x9d, 0x9e, 0x9f, 0xa0, 0xa1, 0xa2, 0xa3, 0xa4]) :
    Takes n (numericPairResult opcode bn1 bn2) fun _ => Deep n := by
  have hpure : ∀ b : Int, Takes n (pure b : Eval Int) fun _ => Deep n :=
    fun b => .pure fun _ hs => hs
  have hneg : (-bn2).natAbs ≤ 2 ^ 40 := by omega
  simp only [mem_cons, not_mem_nil, or_false] at h
  rcases h with rfl | rfl | rfl | rfl | rfl | rfl | rfl | rfl | rfl | rfl | rfl | rfl | rfl
  · exact int64_keeps h1 h2
  · exact int64_keeps h1 hneg
  all_goals exact hpure _

section

variable {P : Primitives} {flags : BitVec 32} {checker : BaseSignatureChecker}

theorem verifyTop_takes (h : serror ≠ .UNKNOWN_ERROR) :
    Takes (n + 1) (verifyTop fSuccess serror) fun _ => Deep n := by
  cases fSuccess with
  | false => exact fail_takes h
  | true => exact popstack_takes

theorem verifyIf_takes (h : serror ≠ .UNKNOWN_ERROR) :
    Takes (n + 1) (verifyIf c fSuccess serror) fun _ => Deep n := by
  cases c with
  | false => exact .pure fun _ hs => hs.mono (Nat.le_succ n)
  | true => exact verifyTop_takes h

theorem pushNumber_safe (opcode : opcodetype) : Safe (pushNumber opcode) :=
  takes_forget (push_takes (length_serialize_le _))

theorem upgradableNop_safe : Safe (upgradableNop flags) := failIf_keeps (by nofun)

theorem checkLockTimeVerify_safe : Safe (checkLockTimeVerify flags checker) := by
  refine .ite (fun _ => ?_) fun _ => upgradableNop_safe
  refine need_takes (by nofun) ?_
  refine topNumber_takes (by omega) (by omega) fun nLockTime _ => ?_
  refine (failIf_keeps (by nofun)).bind fun _ => ?_
  exact takes_forget (failIf_keeps (by nofun))

theorem checkSequenceVerify_safe : Safe (checkSequenceVerify flags checker) := by
  refine .ite (fun _ => ?_) fun _ => upgradableNop_safe
  refine need_takes (by nofun) ?_
  refine topNumber_takes (by omega) (by omega) fun nSequence _ => ?_
  refine (failIf_keeps (by nofun)).bind fun _ => ?_
  exact takes_forget (failIf_keeps (by nofun))

theorem pushExec_keeps (fValue : Bool) : Takes n (pushExec fValue) fun _ => Deep n :=
  .modify fun _ hs => { hs with }

theorem conditional_safe (fExec negated : Bool) : Safe (conditional fExec negated) := by
  refine .ite (fun _ => ?_) fun _ => pushExec_keeps false
  refine need_takes (by nofun) ?_
  refine top_takes (by omega) fun vch _ => ?_
  refine popstack_takes.bind fun _ => ?_
  exact pushExec_keeps _

theorem needExec_safe {f : Machine → Eval PUnit}
    (hf : ∀ s, Deep 0 s → s.vfExec ≠ [] → Triple (· = s) (f s) (fun _ => Deep 0) fun e _ => Expected e) :
    Safe (needExec >>= fun _ => get >>= f) := by
  refine .bind (R := fun _ s => s.vfExec ≠ [] ∧ Deep 0 s) ?_ fun _ => .get_bind fun s hs => hf s hs.2 hs.1
  refine .get_bind fun s hs => .ite (fun _ => .throw fun _ _ => nofun) fun hc => .pure fun t ht => ?_
  rw [ht]
  exact ⟨fun h => hc (isEmpty_iff.mpr h), hs⟩

theorem elseBranch_safe : Safe elseBranch := by
  refine needExec_safe fun s hs hne => ?_
  cases hvf : s.vfExec with
  | nil => exact absurd hvf hne
  | cons back vfExec => exact .set fun _ _ => { hs with }

theorem endIf_safe : Safe endIf := by
  refine needExec_safe fun s hs hne => ?_
  cases hvf : s.vfExec with
  | nil => exact absurd hvf hne
  | cons back vfExec => exact .set fun _ _ => { hs with }

theorem verify_safe : Safe verify := by
  refine need_takes (by nofun) ?_
  refine top_takes (by omega) fun vch _ => ?_
  exact verifyTop_takes (by nofun)

theorem toAltStack_safe : Safe toAltStack := by
  refine need_takes (by nofun) ?_
  refine top_takes (by omega) fun vch hvch => ?_
  refine .bind (.modify fun s hs => ?_) fun _ => popstack_takes
  exact ⟨hs.le_length, hs.short, forall_mem_cons.mpr ⟨hvch, hs.alt_short⟩⟩

theorem fromAltStack_safe : Safe fromAltStack := by
  refine .get_bind fun s hs => ?_
  refine .bind (R := fun _ t => s.altstack ≠ [] ∧ t = s)
    (.ite (fun _ => .throw fun _ _ => nofun) fun hc => .pure fun t ht => ⟨?_, ht⟩)
    fun _ => ?_
  · intro hnil
    rw [hnil] at hc
    exact hc (by decide)
  refine .bind (R := fun vch t => vch.length ≤ MAX_SCRIPT_ELEMENT_SIZE ∧ Deep 0 t)
    (.get_bind fun t ht => ?_) fun vch t ht => takes_forget (push_takes ht.1) t ht.2
  obtain ⟨hne, rfl⟩ := ht
  cases halt : t.altstack with
  | nil => exact absurd halt hne
  | cons vch altstack =>
    have hshort := hs.alt_short
    rw [halt] at hshort
    refine .bind (R := fun _ => Deep 0) (.set fun _ _ => ⟨hs.le_length, hs.short,
      (forall_mem_cons.mp hshort).2⟩) fun _ => .pure fun u hu => ?_
    exact ⟨(forall_mem_cons.mp hshort).1, hu⟩

theorem drop2_safe : Safe drop2 := by
  refine need_takes (by nofun) ?_
  exact popstack_takes.bind fun _ => popstack_takes

theorem dup2_safe : Safe dup2 := by
  refine need_takes (by nofun) ?_
  refine top_takes (by omega) fun vch1 h1 => ?_
  refine top_takes (by omega) fun vch2 h2 => ?_
  refine (push_takes h1).bind fun _ => ?_
  exact takes_forget (push_takes h2)

theorem dup3_safe : Safe dup3 := by
  refine need_takes (by nofun) ?_
  refine top_takes (by omega) fun vch1 h1 => ?_
  refine top_takes (by omega) fun vch2 h2 => ?_
  refine top_takes (by omega) fun vch3 h3 => ?_
  refine (push_takes h1).bind fun _ => ?_
  refine (push_takes h2).bind fun _ => ?_
  exact takes_forget (push_takes h3)

theorem over2_safe : Safe over2 := by
  refine need_takes (by nofun) ?_
  refine top_takes (by omega) fun vch1 h1 => ?_
  refine top_takes (by omega) fun vch2 h2 => ?_
  refine (push_takes h1).bind fun _ => ?_
  exact takes_forget (push_takes h2)

theorem rot2_safe : Safe rot2 := by
  refine need_takes (by nofun) ?_
  refine top_takes (by omega) fun vch1 h1 => ?_
  refine top_takes (by omega) fun vch2 h2 => ?_
  refine (erase_takes (by omega) (by omega)).bind fun _ => ?_
  refine (push_takes h1).bind fun _ => ?_
  exact takes_forget (push_takes h2)

theorem swap2_safe : Safe swap2 := by
  refine need_takes (by nofun) ?_
  refine (swapTops_takes (by omega) (by omega)).bind fun _ => ?_
  exact takes_forget (swapTops_takes (by omega) (by omega))

theorem ifDup_safe : Safe ifDup := by
  refine need_takes (by nofun) ?_
  refine top_takes (by omega) fun vch hvch => ?_
  refine .ite (fun _ => takes_forget (push_takes hvch)) fun _ => ?_
  exact Triple.pure fun _ hs => hs.mono (Nat.zero_le _)

theorem depth_safe : Safe depth :=
  .get_bind_all fun _ => takes_forget (push_takes (length_serialize_le _))

theorem drop_safe : Safe drop :=
  need_takes (by nofun) popstack_takes

theorem dup_safe : Safe dup := by
  refine need_takes (by nofun) ?_
  refine top_takes (by omega) fun vch hvch => ?_
  exact takes_forget (push_takes hvch)

theorem nip_safe : Safe nip := by
  refine need_takes (by nofun) ?_
  exact takes_forget (erase_takes (by omega) (by omega))

theorem over1_safe : Safe over1 := by
  refine need_takes (by nofun) ?_
  refine top_takes (by omega) fun vch hvch => ?_
  exact takes_forget (push_takes hvch)

theorem pick_safe (roll : Bool) : Safe (pick flags roll) := by
  refine need_takes (by nofun) ?_
  refine topNumber_takes (by omega) (by omega) fun bn _ => ?_
  refine popstack_takes.bind fun _ => .get_bind fun s hs => ?_
  -- the position has been compared with the stack as it is now
  have hdeep : Triple (fun t => t = s) (failIf (getint bn < 0 ∨ getint bn ≥ s.stack.length)
      .INVALID_STACK_OPERATION) (fun _ => Deep ((getint bn).toNat + 1)) fun e _ => Expected e := by
    refine .ite (fun _ => .throw fun _ _ => nofun) fun hc => .pure fun t ht => ?_
    rw [ht]
    exact ⟨by omega, hs.short, hs.alt_short⟩
  refine hdeep.bind fun _ => ?_
  refine top_takes (by omega) fun vch hvch => ?_
  refine .bind (R := fun _ => Deep 0) ?_ fun _ => takes_forget (push_takes hvch)
  exact .ite (fun _ => takes_forget (erase_takes le_rfl (by omega)))
    fun _ => Triple.pure fun _ ht => ht.mono (Nat.zero_le _)

theorem rot_safe : Safe rot := by
  refine need_takes (by nofun) ?_
  refine (swapTops_takes (by omega) (by omega)).bind fun _ => ?_
  exact takes_forget (swapTops_takes (by omega) (by omega))

theorem swap_safe : Safe swap := by
  refine need_takes (by nofun) ?_
  exact takes_forget (swapTops_takes (by omega) (by omega))

theorem tuck_safe : Safe tuck := by
  refine need_takes (by nofun) ?_
  refine top_takes (by omega) fun vch hvch => ?_
  exact takes_forget (insert_takes (by omega) hvch)

theorem size_safe : Safe size := by
  refine need_takes (by nofun) ?_
  refine top_takes (by omega) fun vch _ => ?_
  exact takes_forget (push_takes (length_serialize_le _))

theorem equal_safe (fVerify : Bool) : Safe (equal fVerify) := by
  refine need_takes (by nofun) ?_
  refine top_takes (by omega) fun vch1 _ => ?_
  refine top_takes (by omega) fun vch2 _ => ?_
  refine popstack_takes.bind fun _ => popstack_takes.bind fun _ => ?_
  refine (push_takes (length_boolVch_le _)).bind fun _ => ?_
  exact verifyIf_takes (by nofun)

theorem numeric_safe (h : caseLabels.lookup opcode = some .numeric) :
    Safe (numeric flags opcode) := by
  refine need_takes (by nofun) ?_
  refine topNumber_takes (by omega) (by omega) fun bn hbn => ?_
  refine (numericResult_keeps hbn (labels_numeric h)).bind fun bn => ?_
  refine popstack_takes.bind fun _ => ?_
  exact takes_forget (push_takes (length_serialize_le _))

theorem numEqualVerify_takes :
    Takes (n + 1) (numEqualVerify opcode) fun _ => Deep n := by
  refine .ite (fun _ => ?_) fun _ => .pure fun _ hs => hs.mono (Nat.le_succ n)
  refine top_takes (by omega) fun vch _ => ?_
  exact verifyTop_takes (by nofun)

theorem numericPair_safe (h : caseLabels.lookup opcode = some .numericPair) :
    Safe (numericPair flags opcode) := by
  refine need_takes (by nofun) ?_
  refine topNumber_takes (by omega) (by omega) fun bn1 h1 => ?_
  refine topNumber_takes (by omega) (by omega) fun bn2 h2 => ?_
  refine (numericPairResult_keeps h1 h2 (labels_numericPair h)).bind fun bn => ?_
  refine popstack_takes.bind fun _ => popstack_takes.bind fun _ => ?_
  refine (push_takes (length_serialize_le _)).bind fun _ => ?_
  exact numEqualVerify_takes

theorem within_safe : Safe (within flags) := by
  refine need_takes (by nofun) ?_
  refine topNumber_takes (by omega) (by omega) fun bn1 _ => ?_
  refine topNumber_takes (by omega) (by omega) fun bn2 _ => ?_
  refine topNumber_takes (by omega) (by omega) fun bn3 _ => ?_
  refine popstack_takes.bind fun _ => popstack_takes.bind fun _ => popstack_takes.bind fun _ => ?_
  exact takes_forget (push_takes (length_boolVch_le _))

theorem length_hashResult_le (opcode : opcodetype) (vch : Bytes) :
    (hashResult P opcode vch).length ≤ MAX_SCRIPT_ELEMENT_SIZE := by
  rw [MAX_SCRIPT_ELEMENT_SIZE, hashResult]
  split_ifs
  · rw [(P.ripemd160 vch).2]
    decide
  · rw [(P.sha1 vch).2]
    decide
  · rw [(P.sha256 vch).2]
    decide
  · rw [(P.hash160 vch).2]
    decide
  · rw [(P.hash256 vch).2]
    decide
  · rw [length_replicate]
    decide

theorem hash_safe (opcode : opcodetype) : Safe (hash P opcode) := by
  refine need_takes (by nofun) ?_
  refine top_takes (by omega) fun vch _ => ?_
  refine popstack_takes.bind fun _ => ?_
  exact takes_forget (push_takes (length_hashResult_le opcode vch))

theorem checkSignatureEncoding_ne (h : checkSignatureEncoding P flags vchSig = some serror) :
    serror ≠ .UNKNOWN_ERROR := by
  rw [checkSignatureEncoding, isLowDERSignature] at h
  split_ifs at h
  all_goals
    cases h
    nofun

theorem checkPubKeyEncoding_ne (h : checkPubKeyEncoding flags vchPubKey = some serror) :
    serror ≠ .UNKNOWN_ERROR := by
  rw [checkPubKeyEncoding] at h
  split_ifs at h
  cases h
  nofun

theorem checkSig_safe (fVerify : Bool) : Safe (checkSig P flags checker fVerify) := by
  refine need_takes (by nofun) ?_
  refine top_takes (by omega) fun vchSig _ => ?_
  refine top_takes (by omega) fun vchPubKey _ => ?_
  refine .get_bind_all fun s => ?_
  refine (failWith_keeps fun _ => checkSignatureEncoding_ne).bind fun _ => ?_
  refine (failWith_keeps fun _ => checkPubKeyEncoding_ne).bind fun _ => ?_
  refine popstack_takes.bind fun _ => popstack_takes.bind fun _ => ?_
  refine (push_takes (length_boolVch_le _)).bind fun _ => ?_
  exact verifyIf_takes (by nofun)

theorem dropSigs_keeps (nSigsCount isig : Nat) (scriptCode : CScript)
    (h : isig + 1 + nSigsCount ≤ n + 1) :
    Takes n (dropSigs nSigsCount (isig + 1) scriptCode) fun _ => Deep n := by
  induction nSigsCount generalizing isig scriptCode with
  | zero => exact .pure fun _ hs => hs
  | succ nSigsCount ih =>
    refine top_takes (by omega) fun vchSig _ => ?_
    exact ih (isig + 1) _ (by omega)

theorem checkSigs_keeps (scriptCode : CScript) (nKeysCount nSigsCount isig ikey : Nat)
    (hsig : isig + 1 + nSigsCount ≤ n + 1) (hkey : ikey + 1 + nKeysCount ≤ n + 1) :
    Takes n (checkSigs P flags checker scriptCode nKeysCount nSigsCount (isig + 1) (ikey + 1))
      fun _ => Deep n := by
  induction nKeysCount generalizing nSigsCount isig ikey with
  | zero => cases nSigsCount <;> exact .pure fun _ hs => hs
  | succ nKeysCount ih =>
    cases nSigsCount with
    | zero => exact .pure fun _ hs => hs
    | succ nSigsCount =>
      refine top_takes (by omega) fun vchSig _ => ?_
      refine top_takes (by omega) fun vchPubKey _ => ?_
      refine (failWith_keeps fun _ => checkSignatureEncoding_ne).bind fun _ => ?_
      refine (failWith_keeps fun _ => checkPubKeyEncoding_ne).bind fun _ => ?_
      refine .ite (fun _ => .pure fun _ hs => hs) fun _ => ?_
      cases checker.checkSig vchSig vchPubKey scriptCode with
      | true => exact ih nSigsCount (isig + 1) (ikey + 1) (by omega) (by omega)
      | false => exact ih (nSigsCount + 1) isig (ikey + 1) (by omega) (by omega)

theorem popDummy_takes : Takes n (popDummy flags) fun _ => Deep 0 := by
  refine need_takes (by nofun) ?_
  refine top_takes (by omega) fun dummy _ => ?_
  refine (failIf_keeps (by nofun)).bind fun _ => ?_
  exact popstack_takes

theorem checkMultisig_safe (fVerify : Bool) : Safe (checkMultisig P flags checker fVerify) := by
  refine need_takes (by nofun) ?_
  refine topNumber_takes (by omega) (by omega) fun keysNum _ => ?_
  refine (failIf_keeps (by nofun)).bind fun _ => ?_
  refine .bind (R := fun _ => Deep 0) (.modify fun s hs =>
    ⟨Nat.zero_le _, hs.short, hs.alt_short⟩) fun _ => ?_
  refine .get_bind_all fun s => ?_
  refine (failIf_keeps (by nofun)).bind fun _ => ?_
  refine need_takes (by nofun) ?_
  rw [add_comm 2]
  refine topNumber_takes (by omega) (by omega) fun sigsNum _ => ?_
  refine (failIf_takes (by nofun)).bind_fact fun _ hsigs => ?_
  refine need_takes (by nofun) ?_
  refine (dropSigs_keeps _ _ _ (by omega)).bind fun scriptCode => ?_
  refine (checkSigs_keeps scriptCode _ _ _ 1 (by omega) (by omega)).bind fun fSuccess => ?_
  refine (takes_mono (popstacks_takes (n := 0) _) (by omega)).bind fun _ => ?_
  refine popDummy_takes.bind fun _ => ?_
  refine (push_takes (length_boolVch_le _)).bind fun _ => ?_
  exact verifyIf_takes (by nofun)

theorem execute_safe (fExec : Bool) (o : Operation) : Safe (execute P flags checker fExec o) := by
  rw [execute]
  cases h : caseLabels.lookup o.opcode with
  | none => exact fail_takes (by nofun)
  | some c =>
    cases c with
    | pushNumber => exact pushNumber_safe _
    | OP_NOP => exact .pure fun _ hs => hs
    | OP_CHECKLOCKTIMEVERIFY => exact checkLockTimeVerify_safe
    | OP_CHECKSEQUENCEVERIFY => exact checkSequenceVerify_safe
    | upgradableNop => exact upgradableNop_safe
    | OP_IF => exact conditional_safe _ _
    | OP_NOTIF => exact conditional_safe _ _
    | OP_ELSE => exact elseBranch_safe
    | OP_ENDIF => exact endIf_safe
    | OP_VERIFY => exact verify_safe
    | OP_RETURN => exact fail_takes (by nofun)
    | OP_TOALTSTACK => exact toAltStack_safe
    | OP_FROMALTSTACK => exact fromAltStack_safe
    | OP_2DROP => exact drop2_safe
    | OP_2DUP => exact dup2_safe
    | OP_3DUP => exact dup3_safe
    | OP_2OVER => exact over2_safe
    | OP_2ROT => exact rot2_safe
    | OP_2SWAP => exact swap2_safe
    | OP_IFDUP => exact ifDup_safe
    | OP_DEPTH => exact depth_safe
    | OP_DROP => exact drop_safe
    | OP_DUP => exact dup_safe
    | OP_NIP => exact nip_safe
    | OP_OVER => exact over1_safe
    | OP_PICK => exact pick_safe _
    | OP_ROLL => exact pick_safe _
    | OP_ROT => exact rot_safe
    | OP_SWAP => exact swap_safe
    | OP_TUCK => exact tuck_safe
    | OP_SIZE => exact size_safe
    | OP_EQUAL => exact equal_safe _
    | OP_EQUALVERIFY => exact equal_safe _
    | numeric => exact numeric_safe h
    | numericPair => exact numericPair_safe h
    | OP_WITHIN => exact within_safe
    | hash => exact hash_safe _
    | OP_CODESEPARATOR =>
      exact .modify fun _ hs => { hs with }
    | OP_CHECKSIG => exact checkSig_safe _
    | OP_CHECKSIGVERIFY => exact checkSig_safe _
    | OP_CHECKMULTISIG => exact checkMultisig_safe _
    | OP_CHECKMULTISIGVERIFY => exact checkMultisig_safe _

theorem countOp_safe (opcode : opcodetype) : Safe (countOp opcode) := by
  refine .ite (fun _ => ?_) fun _ => .pure fun _ hs => hs
  refine .bind (R := fun _ => Deep 0) (.modify fun _ hs =>
    { hs with }) fun _ => .get_bind_all fun s => ?_
  exact failIf_keeps (by nofun)

theorem dispatch_safe (ho : o.vch.length ≤ MAX_SCRIPT_ELEMENT_SIZE) :
    Safe (dispatch P flags checker fExec o) := by
  refine .ite (fun _ => ?_) fun _ => .ite (fun _ => execute_safe fExec o)
    fun _ => .pure fun _ hs => hs
  exact (failIf_keeps (by nofun)).bind fun _ => takes_forget (push_takes ho)

def Bounded (s : Machine) : Prop := Deep 0 s ∧ s.stack.length + s.altstack.length ≤ 1000

theorem sizeLimit_takes : Takes 0 sizeLimit fun _ => Bounded := by
  refine .get_bind fun s hs => .ite (fun _ => .throw fun _ _ => nofun) fun hc => ?_
  refine .pure fun t ht => ?_
  rw [ht]
  exact ⟨hs, not_lt.mp hc⟩

theorem step_takes (o : Operation) : Takes 0 (step P flags checker o) fun _ => Bounded := by
  refine .get_bind_all fun s => ?_
  refine (failIf_takes (by nofun)).bind_fact fun _ ho => ?_
  refine (countOp_safe o.opcode).bind fun _ => ?_
  refine (failIf_keeps (by nofun)).bind fun _ => ?_
  exact (dispatch_safe (not_lt.mp ho)).bind fun _ => sizeLimit_takes

theorem evalCode_bounded (code : Code) : Triple Bounded (evalCode P flags checker code)
    (fun _ => Bounded) fun e _ => Expected e := by
  induction code with
  | finished => exact .pure fun _ hs => hs
  | bad pc => exact .throw fun _ _ => nofun
  | op o rest ih => exact .bind ((step_takes o).pre fun _ hs => hs.1) fun _ => ih

theorem evalBody_bounded (script : CScript) : Triple Bounded (evalBody P flags checker script)
    (fun _ => Bounded) fun e _ => Expected e := by
  refine .bind (R := fun _ => Bounded) (.ite (fun _ => .throw fun _ _ => nofun)
    fun _ => .pure fun _ hs => hs) fun _ => ?_
  refine (evalCode_bounded _).bind fun _ => .get_bind fun s hs => ?_
  refine .ite (fun _ => .throw fun _ _ => nofun) fun _ => .pure fun t ht => ?_
  rw [ht]
  exact hs

end

/-- On a stack within the limits every access of `EvalScript` is in range and no assertion fails.
The error is `UNKNOWN_ERROR` only if a number was refused. -/
theorem evalScript_safe (P : Primitives) (flags : BitVec 32) (checker : BaseSignatureChecker)
    (script : CScript) (stack : List Bytes) (hlen : stack.length ≤ 1000)
    (hshort : ∀ vch ∈ stack, vch.length ≤ MAX_SCRIPT_ELEMENT_SIZE) :
    match evalBody P flags checker script (Machine.start stack script) with
    | .ok _ s => evalScript P flags checker script stack = .ok ⟨⟩ s.stack ∧
        s.stack.length + s.altstack.length ≤ 1000 ∧
        ∀ vch ∈ s.stack, vch.length ≤ MAX_SCRIPT_ELEMENT_SIZE
    | .error e s =>
      (e = .scriptnum_error ∧
        evalScript P flags checker script stack = .error (.error .UNKNOWN_ERROR) s.stack) ∨
      ∃ serror, serror ≠ .UNKNOWN_ERROR ∧ e = .error serror ∧
        evalScript P flags checker script stack = .error (.error serror) s.stack := by
  have hstart : Bounded (Machine.start stack script) := ⟨⟨Nat.zero_le _, hshort, nofun⟩, hlen⟩
  have h := @evalBody_bounded P flags checker script _ hstart
  simp only [evalScript]
  cases hrun : evalBody P flags checker script (Machine.start stack script) with
  | ok a s =>
    rw [hrun] at h
    exact ⟨rfl, h.2, h.1.short⟩
  | error e s =>
    rw [hrun] at h
    cases e with
    | error serror => exact .inr ⟨serror, h, rfl, rfl⟩
    | scriptnum_error => exact .inl ⟨rfl, rfl⟩
    | out_of_range | runtime_error | undefined | assertion => exact h.elim

def constantHashes : Primitives where
  ripemd160 _ := zeroBytes 20
  sha1 _ := zeroBytes 20
  sha256 _ := zeroBytes 32
  checkLowS _ := true

theorem evalScript_safe_dup_hash :
    match evalBody constantHashes 0 .refusing [OP_DUP, OP_HASH160]
      (Machine.start [[1], [2]] [OP_DUP, OP_HASH160]) with
    | .ok _ s => evalScript constantHashes 0 .refusing [OP_DUP, OP_HASH160] [[1], [2]] =
          .ok ⟨⟩ s.stack ∧
        s.stack.length + s.altstack.length ≤ 1000 ∧
        ∀ vch ∈ s.stack, vch.length ≤ MAX_SCRIPT_ELEMENT_SIZE
    | .error e s =>
      (e = .scriptnum_error ∧
        evalScript constantHashes 0 .refusing [OP_DUP, OP_HASH160] [[1], [2]] =
          .error (.error .UNKNOWN_ERROR) s.stack) ∨
      ∃ serror, serror ≠ .UNKNOWN_ERROR ∧ e = .error serror ∧
        evalScript constantHashes 0 .refusing [OP_DUP, OP_HASH160] [[1], [2]] =
          .error (.error serror) s.stack :=
  evalScript_safe constantHashes 0 .refusing [OP_DUP, OP_HASH160] [[1], [2]] (by decide) (by decide)

end Utsuite.InterpreterSafety
