import Utsuite.InterpreterSafety

namespace Utsuite.PushOnly

open ByteWords Transaction Script Interpreter InterpreterSafety Hoare

section

variable {P P' : Primitives} {flags flags' : BitVec 32} {checker checker' : BaseSignatureChecker}
  {o : Operation}

theorem lookup_of_le (h : opcode ≤ OP_16) (hc : caseLabels.lookup opcode = some c) :
    c = .pushNumber := by
  have hall : (caseLabels.all fun p => p.1 ≤ OP_16 → p.2 = Case.pushNumber) = true := by decide +kernel
  obtain ⟨l₁, l₂, hl, -⟩ := List.lookup_eq_some_iff.mp hc
  have hmem : (opcode, c) ∈ caseLabels := by
    rw [hl]
    exact List.mem_append_right l₁ List.mem_cons_self
  exact of_decide_eq_true (List.all_eq_true.mp hall _ hmem) h

theorem execute_of_le (h : o.opcode ≤ OP_16) (fExec : Bool) :
    execute P flags checker fExec o =
      if (caseLabels.lookup o.opcode).isSome then pushNumber o.opcode
      else throw (.error .BAD_OPCODE) := by
  rw [execute]
  cases hc : caseLabels.lookup o.opcode with
  | none => rfl
  | some c =>
    obtain rfl := lookup_of_le h hc
    rfl

theorem step_congr (h : o.opcode ≤ OP_16) (hmin : has flags .MINIMALDATA = has flags' .MINIMALDATA) :
    step P flags checker o = step P' flags' checker' o := by
  have hdispatch (fExec : Bool) :
      dispatch P flags checker fExec o = dispatch P' flags' checker' fExec o := by
    simp only [dispatch, pushValue, failIf, execute_of_le h, hmin]
  simp only [step, hdispatch]

def Short (s : Machine) : Prop := ∀ vch ∈ s.stack, vch.length ≤ MAX_SCRIPT_ELEMENT_SIZE

abbrev Keeps (m : Eval PUnit) : Prop := Triple Short m (fun _ => Short) fun _ => Short

theorem failIf_fact [Decidable c] :
    Triple Short (failIf c serror) (fun _ s => ¬c ∧ Short s) fun _ => Short :=
  .ite (fun _ => .throw fun _ hs => hs) fun hc => .pure fun _ hs => ⟨hc, hs⟩

theorem failIf_short [Decidable c] : Keeps (failIf c serror) :=
  failIf_fact.post fun _ _ hs => hs.2

theorem push_short (h : vch.length ≤ MAX_SCRIPT_ELEMENT_SIZE) : Keeps (push vch) :=
  .modify fun _ hs => List.forall_mem_cons.mpr ⟨h, hs⟩

theorem step_short (h : o.opcode ≤ OP_16) : Keeps (step P flags checker o) := by
  refine .get_bind_all fun s => ?_
  refine failIf_fact.bind_fact fun _ ho => ?_
  refine .bind (R := fun _ => Short) ?_ fun _ => ?_
  · rw [countOp, if_neg (UInt8.not_lt.mpr h)]
    exact .pure fun _ hs => hs
  refine failIf_short.bind fun _ => ?_
  refine .bind (R := fun _ => Short) ?_ fun _ => ?_
  · refine .ite (fun _ => ?_) fun _ => .ite (fun _ => ?_) fun _ => .pure fun _ hs => hs
    · exact failIf_short.bind fun _ => push_short (not_lt.mp ho)
    · rw [execute_of_le h]
      exact .ite (fun _ => push_short (length_serialize_le _)) fun _ => .throw fun _ hs => hs
  · exact .get_bind_all fun s => failIf_short

end

section

variable {P P' : Primitives} {flags flags' : BitVec 32} {checker checker' : BaseSignatureChecker}

theorem isPushOnly_op (h : (Code.op o rest).isPushOnly = true) :
    o.opcode ≤ OP_16 ∧ rest.isPushOnly = true := by
  rw [Code.isPushOnly] at h
  split_ifs at h with hle
  exact ⟨UInt8.not_lt.mp hle, h⟩

theorem evalCode_congr (hmin : has flags .MINIMALDATA = has flags' .MINIMALDATA)
    (h : code.isPushOnly = true) :
    evalCode P flags checker code = evalCode P' flags' checker' code := by
  induction code with
  | finished => rfl
  | bad pc => rfl
  | op o rest ih =>
    obtain ⟨hle, hrest⟩ := isPushOnly_op h
    rw [evalCode, evalCode, step_congr hle hmin, ih hrest]

theorem evalCode_short (h : code.isPushOnly = true) : Keeps (evalCode P flags checker code) := by
  induction code with
  | finished => exact .pure fun _ hs => hs
  | bad pc => cases h
  | op o rest ih =>
    obtain ⟨hle, hrest⟩ := isPushOnly_op h
    exact (step_short hle).bind fun _ => ih hrest

variable {script : CScript}

theorem evalScript_congr (hmin : has flags .MINIMALDATA = has flags' .MINIMALDATA)
    (h : isPushOnly script = true) :
    evalScript P flags checker script = evalScript P' flags' checker' script := by
  funext stack
  rw [evalScript, evalScript, evalBody, evalBody, evalCode_congr hmin h]

theorem evalBody_short (h : isPushOnly script = true) : Keeps (evalBody P flags checker script) :=
  failIf_short.bind fun _ => (evalCode_short h).bind fun _ => .get_bind_all fun _ => failIf_short

end

end Utsuite.PushOnly
