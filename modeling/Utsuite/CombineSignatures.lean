import Utsuite.CombineMultisig
import Utsuite.PushOnly
import Utsuite.Signing

namespace Utsuite.CombineSignatures

open ByteWords Transaction Script Interpreter Standard ScriptBytes OpcodeRun ScriptRun GreedyMatch CombineMultisig Signing List
open InterpreterSafety (constantHashes)
open ScriptSign (txnouttype pushData pushAll required pubkeys)

section

variable {P : Primitives} {checker : BaseSignatureChecker} {scriptSig scriptPubKey : CScript}

def p2shFlags : BitVec 32 := flagsOf [.P2SH]

theorem lax_p2sh : Lax p2shFlags := ⟨by decide, by decide, by decide, by decide, by decide⟩

theorem stackOf_eq (h : isPushOnly scriptSig = true)
    (heval : evalScript P p2shFlags checker scriptSig [] = .ok ⟨⟩ st) :
    stackOf P scriptSig = st := by
  have hmin : has p2shFlags .MINIMALDATA = has (flagsOf [.STRICTENC]) .MINIMALDATA := by decide
  have hsame : evalScript P p2shFlags checker scriptSig =
      evalScript P (flagsOf [.STRICTENC]) .refusing scriptSig := PushOnly.evalScript_congr hmin h
  rw [hsame] at heval
  rw [stackOf, heval]

theorem stackOf_short (h : isPushOnly scriptSig = true) :
    ∀ vch ∈ stackOf P scriptSig, vch.length ≤ MAX_SCRIPT_ELEMENT_SIZE := by
  have hshort : ∀ s : Machine, PushOnly.Short s → _ :=
    @PushOnly.evalBody_short P (flagsOf [.STRICTENC]) .refusing scriptSig h
  have hstart := hshort (Machine.start [] scriptSig) nofun
  rw [stackOf, evalScript]
  cases hbody : evalBody P (flagsOf [.STRICTENC]) .refusing scriptSig (Machine.start [] scriptSig) with
  | ok a s =>
    rw [hbody] at hstart
    exact hstart
  | error e s =>
    rw [hbody] at hstart
    exact hstart

def signedScript (scriptPubKey : CScript) (stack : List Bytes) : CScript × List Bytes :=
  if isPayToScriptHash scriptPubKey then (stack.headD [], stack.tail) else (scriptPubKey, stack)

theorem mem_of_mem_signedScript (h : vch ∈ (signedScript scriptPubKey stack).2) : vch ∈ stack := by
  rw [signedScript] at h
  split_ifs at h
  · exact mem_of_mem_tail h
  · exact h

/-- What has to hold of a stack for a scriptSig that leaves it to satisfy `scriptPubKey`. -/
structure Accepts (P : Primitives) (checker : BaseSignatureChecker) (scriptPubKey : CScript)
    (stack : List Bytes) : Prop where
  redeems : isPayToScriptHash scriptPubKey = true → stack ≠ [] ∧ stack.length < 1000 ∧
    (P.hash160 (stack.headD [])).1 = (scriptPubKey.drop 2).take 20
  leaves : ∃ rest, Leaves P p2shFlags checker (signedScript scriptPubKey stack).1
    (signedScript scriptPubKey stack).2 rest

theorem verifyScript_p2sh (h : isPushOnly scriptSig = true) :
    verifyScript P p2shFlags checker scriptSig scriptPubKey = true ↔
      ∃ st, evalScript P p2shFlags checker scriptSig [] = .ok ⟨⟩ st ∧ Accepts P checker scriptPubKey st := by
  have hclean : ¬has p2shFlags .CLEANSTACK = true := by decide
  have honly : has p2shFlags .SIGPUSHONLY = false := by decide
  by_cases hspk : isPayToScriptHash scriptPubKey = true
  · have hsigned (st : List Bytes) : signedScript scriptPubKey st = (st.headD [], st.tail) := if_pos hspk
    rw [verifyScript_scripthash (absurd · hclean) honly (by decide) hspk]
    constructor
    · rintro ⟨redeemScript, st, rest, heval, -, hroom, hhash, hleaves, -⟩
      exact ⟨redeemScript :: st, heval, fun _ => ⟨cons_ne_nil _ _, hroom, hhash⟩, rest,
        by rwa [hsigned]⟩
    · rintro ⟨st, heval, haccepts⟩
      obtain ⟨hne, hroom, hhash⟩ := haccepts.redeems hspk
      obtain ⟨rest, hleaves⟩ := haccepts.leaves
      obtain ⟨redeemScript, st, rfl⟩ := exists_cons_of_ne_nil hne
      rw [hsigned] at hleaves
      exact ⟨redeemScript, st, rest, heval, h, hroom, hhash, hleaves, (absurd · hclean)⟩
  · have hsigned (st : List Bytes) : signedScript scriptPubKey st = (scriptPubKey, st) := if_neg hspk
    rw [verifyScript_plain (absurd · hclean) honly (by simp [hspk])]
    constructor
    · rintro ⟨st, rest, heval, hleaves, -⟩
      exact ⟨st, heval, fun h => absurd h hspk, rest, by rwa [hsigned]⟩
    · rintro ⟨st, heval, haccepts⟩
      obtain ⟨rest, hleaves⟩ := haccepts.leaves
      rw [hsigned] at hleaves
      exact ⟨st, rest, heval, hleaves, (absurd · hclean)⟩

theorem verifyScript_pushes (hsize : (pushes values).length ≤ MAX_SCRIPT_SIZE) (hroom : values.length ≤ 1000)
    (hshort : ∀ vch ∈ values, vch.length ≤ MAX_SCRIPT_ELEMENT_SIZE)
    (h : Accepts P checker scriptPubKey values.reverse) :
    verifyScript P p2shFlags checker (pushes values) scriptPubKey = true := by
  have hpush : isPushOnly (pushes values) = true :=
    isPushOnly_pushes values fun vch hvch => (hshort vch hvch).trans_lt (by decide)
  exact (verifyScript_p2sh hpush).mpr
    ⟨_, evalScript_pushes_fitting hshort (fun h => by cases h) hsize hroom, h⟩

end

theorem checkSig_nil (P : Primitives) (E : Curve) (txTo : CMutableTransaction) (nIn : Nat) (key : Bytes)
    (script : CScript) : (transactionSignatureChecker P E txTo nIn).checkSig [] key script = false := by
  change Signing.checkSig P E txTo nIn [] key script = false
  rw [Signing.checkSig]
  split <;> rfl

section

variable {P : Primitives} {checker : BaseSignatureChecker} {script : CScript} {txType : txnouttype}
  {vSolutions good other : List Bytes}

theorem length_lt_of_leaves (hsolver : solver script = (true, txType, vSolutions))
    (htype : txType = .pubkey ∨ txType = .pubkeyhash ∨ txType = .multisig)
    (h : Leaves P p2shFlags checker script good rest) : good.length < 1000 := by
  cases solver_form hsolver with
  | pubkey _ key checksig hcode hkey hchecksig =>
    exact ((leaves_pubkey hcode hkey hchecksig).mp h).2.1
  | pubkeyhash _ o =>
    have hroom := ((leaves_pubkeyhash o).mp h).2.1
    omega
  | multisig _ s =>
    have hroom := ((leaves_multisig_body s).mp h).2.1
    omega
  | scripthash | nullData => simp at htype

theorem multisig_stack (hsolver : solver script = (true, .multisig, vSolutions))
    (hlen : ∀ sig ∈ good, sig.length ≤ MAX_SCRIPT_ELEMENT_SIZE)
    (hne : ∀ sig ∈ good, sig ∉ pubkeys vSolutions)
    (h : Leaves P p2shFlags checker script good left) :
    required vSolutions ≤ (pubkeys vSolutions).countP fun key =>
      good.any fun sig => checker.checkSig sig key script := by
  cases solver_form hsolver with
  | multisig _ s =>
    rw [pubkeys_eq] at hne
    rw [pubkeys_eq, cons_append, required_eq (s.le.trans (decodeOP_N_le s.decodeN))]
    have hdeep := lt_length_of_leaves_multisig s h
    obtain ⟨sigs, dummy, rest, rfl, hsigs⟩ : ∃ sigs dummy rest, good = sigs ++ dummy :: rest ∧
        sigs.length = s.m := by
      refine ⟨good.take s.m, good[s.m], good.drop (s.m + 1), ?_, ?_⟩
      · rw [getElem_cons_drop, take_append_drop]
      · rw [length_take]
        omega
    have hdelete : ∀ sig ∈ sigs, findAndDelete script (pushData sig) = script := by
      intro sig hsig
      have hmem : sig ∈ sigs ++ dummy :: rest := mem_append_left _ hsig
      refine findAndDelete_eq ((hlen sig hmem).trans_lt (by decide)) fun hpush => hne sig hmem ?_
      exact mem_keys_of_pushes s hpush
    rw [leaves_multisig s hsigs hdelete (fun k _ => lax_p2sh.pubkey)
      (fun sig _ => lax_p2sh.signature) (fun h => by cases h),
      greedy_iff] at h
    obtain ⟨-, -, -, hfits⟩ := h
    rw [← hsigs, ← length_reverse]
    refine length_le_countP_of_sublistForall₂ hfits fun sig hsig key hvalid => ?_
    have hmem : sig ∈ sigs ++ dummy :: rest := mem_append_left _ (mem_reverse.mp hsig)
    exact any_eq_true.mpr ⟨sig, hmem, hvalid⟩

structure Distinct (valid : Bytes → Bytes → Bool) (keys sigs : List Bytes) : Prop where
  one : ∀ sig ∈ sigs, ∀ key ∈ keys, ∀ key' ∈ keys, valid sig key = true → valid sig key' = true → key = key'
  ne : ∀ sig ∈ sigs, sig ∉ keys

theorem Distinct.comm {valid : Bytes → Bytes → Bool} {keys sigs sigs' : List Bytes}
    (h : Distinct valid keys (sigs ++ sigs')) : Distinct valid keys (sigs' ++ sigs) :=
  ⟨fun sig hsig => h.one sig (mem_append.mpr (mem_append.mp hsig).symm),
    fun sig hsig => h.ne sig (mem_append.mpr (mem_append.mp hsig).symm)⟩

def Signs (P : Primitives) (checker : BaseSignatureChecker) (script scriptSig : CScript) : Prop :=
  ∃ values, scriptSig = pushes values ∧ values.length ≤ 17 ∧
    (∀ vch ∈ values, vch.length ≤ MAX_SCRIPT_ELEMENT_SIZE) ∧
    Leaves P p2shFlags checker script values.reverse []

theorem signs_multisig (hempty : ∀ key script, checker.checkSig [] key script = false)
    (hsolver : solver script = (true, .multisig, vSolutions))
    (hlen : ∀ vch ∈ sigs1 ++ sigs2, vch.length ≤ MAX_SCRIPT_ELEMENT_SIZE)
    (hgood : ∀ vch ∈ good, vch ∈ sigs1 ++ sigs2)
    (hleaves : Leaves P p2shFlags checker script good rest)
    (hkeys : Distinct (fun sig key => checker.checkSig sig key script) (pubkeys vSolutions) (sigs1 ++ sigs2)) :
    Signs P checker script (combineStacks checker script .multisig vSolutions sigs1 sigs2) := by
  obtain ⟨values, hvalues, hfew, hshort, hmerged⟩ := combineMultisig_leaves (P := P) lax_p2sh hsolver hlen
    (hempty · script) hkeys.one hkeys.ne
  refine ⟨values, by rw [combineStacks, hvalues], hfew, hshort, (hmerged []).mpr ⟨rfl, ?_⟩⟩
  have henough := multisig_stack hsolver (fun sig hsig => hlen sig (hgood sig hsig))
    (fun sig hsig => hkeys.ne sig (hgood sig hsig)) hleaves
  refine henough.trans (countP_mono_left fun key _ hkey => ?_)
  obtain ⟨sig, hsig, hvalid⟩ := any_eq_true.mp hkey
  exact any_eq_true.mpr ⟨sig, hgood sig hsig, hvalid⟩

theorem combineStacks_single (htype : txType = .pubkey ∨ txType = .pubkeyhash) (sigs1 sigs2 : List Bytes) :
    combineStacks checker script txType vSolutions sigs1 sigs2 =
      if sigs1.getLastD [] = [] then pushAll sigs2 else pushAll sigs1 := by
  obtain rfl | rfl := htype
  · rw [combineStacks]
  · rw [combineStacks]

theorem combineStacks_scripthash (sigs1 sigs2 : List Bytes) :
    combineStacks checker script .scripthash vSolutions sigs1 sigs2 =
      if sigs1.headD [] = [] then pushAll sigs2
      else if sigs2.headD [] = [] then pushAll sigs1
      else
        combineStacks checker (sigs1.headD []) (solver (sigs1.headD [])).2.1
          (solver (sigs1.headD [])).2.2 sigs1.tail sigs2.tail ++ pushData (sigs1.headD []) := by
  cases sigs1 with
  | nil =>
    rw [combineStacks]
    rfl
  | cons spk rest1 =>
    rw [combineStacks]
    rfl

end

def Blank (P : Primitives) (scriptPubKey other : CScript) : Prop :=
  isPayToScriptHash scriptPubKey = true ∧ (stackOf P other).headD [] = []

/-- What may stand in front of a satisfying scriptSig for `script`. It is nothing at all, or a
scriptSig for the same script that is for a multisig or has nothing where the signature should be.
-/
def Mergeable (P : Primitives) (scriptPubKey script other : CScript) : Prop :=
  Blank P scriptPubKey other ∨ (signedScript scriptPubKey (stackOf P other)).1 = script ∧
    ((solver script).2.1 = .multisig ∨ (signedScript scriptPubKey (stackOf P other)).2.getLastD [] = [])

section

variable {P : Primitives} {checker : BaseSignatureChecker} {scriptPubKey script scriptSig : CScript}

theorem Signs.plain (h : Signs P checker scriptPubKey scriptSig)
    (hspk : ¬isPayToScriptHash scriptPubKey = true) :
    verifyScript P p2shFlags checker scriptSig scriptPubKey = true := by
  obtain ⟨values, rfl, hfew, hshort, hleaves⟩ := h
  refine verifyScript_pushes (pushes_fits hshort (hfew.trans (by decide))) (hfew.trans (by decide))
    hshort ⟨fun h => absurd h hspk, [], ?_⟩
  rw [signedScript, if_neg hspk]
  exact hleaves

theorem Signs.wrapped (h : Signs P checker script scriptSig)
    (hspk : isPayToScriptHash scriptPubKey = true) (hlen : script.length ≤ MAX_SCRIPT_ELEMENT_SIZE)
    (hhash : (P.hash160 script).1 = (scriptPubKey.drop 2).take 20) :
    verifyScript P p2shFlags checker (scriptSig ++ pushData script) scriptPubKey = true := by
  obtain ⟨values, rfl, hfew, hshort, hleaves⟩ := h
  have happend : pushes values ++ pushData script = pushes (values ++ [script]) := by
    rw [pushes_append, pushes_cons]
    exact congrArg _ (append_nil _).symm
  have hshort' : ∀ vch ∈ values ++ [script], vch.length ≤ MAX_SCRIPT_ELEMENT_SIZE :=
    forall_mem_append.mpr ⟨hshort, forall_mem_singleton.mpr hlen⟩
  have hfew' : (values ++ [script]).length ≤ 18 := by
    rw [length_append, length_singleton]
    omega
  rw [happend]
  refine verifyScript_pushes (pushes_fits hshort' (hfew'.trans (by decide))) (hfew'.trans (by decide))
    hshort' ?_
  rw [reverse_append, reverse_singleton, singleton_append]
  refine ⟨fun _ => ⟨cons_ne_nil _ _, ?_, hhash⟩, [], ?_⟩
  · rw [length_cons, length_reverse]
    omega
  · rw [signedScript, if_pos hspk]
    exact hleaves

/-- A satisfying scriptSig still satisfies when its values are pushed again, provided that the
pushes fit into a script. -/
theorem verifyScript_pushAll (hpush : isPushOnly scriptSig = true)
    (h : verifyScript P p2shFlags checker scriptSig scriptPubKey = true)
    (hroom : (stackOf P scriptSig).length ≤ 1000)
    (hsize : (pushAll (stackOf P scriptSig)).length ≤ MAX_SCRIPT_SIZE) :
    verifyScript P p2shFlags checker (pushAll (stackOf P scriptSig)) scriptPubKey = true := by
  obtain ⟨st, heval, haccepts⟩ := (verifyScript_p2sh hpush).mp h
  rw [← stackOf_eq hpush heval] at haccepts
  refine verifyScript_pushes hsize ?_ (fun vch hvch => ?_) ?_
  · rwa [length_reverse]
  · exact stackOf_short hpush vch (mem_reverse.mp hvch)
  · rwa [reverse_reverse]

theorem combineSignatures_eq (scriptSig1 scriptSig2 : CScript)
    (h : solver scriptPubKey = (true, txType, vSolutions)) :
    combineSignatures P checker scriptPubKey scriptSig1 scriptSig2 =
      combineStacks checker scriptPubKey txType vSolutions (stackOf P scriptSig1) (stackOf P scriptSig2) := by
  rw [combineSignatures, h]

/-- When both scriptSigs are for the same redeem script, their values below it are merged and it is
pushed behind them. -/
theorem combineSignatures_wrapped (hspk : isPayToScriptHash scriptPubKey = true)
    (hscript : (stackOf P first).headD [] = script) (hne : script ≠ [])
    (hsecond : (stackOf P second).headD [] ≠ []) :
    combineSignatures P checker scriptPubKey first second =
      combineStacks checker script (solver script).2.1 (solver script).2.2 (stackOf P first).tail
        (stackOf P second).tail ++ pushData script := by
  have hsolver : solver scriptPubKey = (true, .scripthash, [(scriptPubKey.drop 2).take 20]) := by
    rw [solver, if_pos hspk]
  rw [combineSignatures_eq first second hsolver, combineStacks_scripthash, hscript, if_neg hne, if_neg hsecond]

theorem pushAll_stackOf (hne : (stackOf P scriptSig).headD [] ≠ []) :
    pushAll (stackOf P scriptSig) =
      pushAll (stackOf P scriptSig).tail ++ pushData ((stackOf P scriptSig).headD []) := by
  cases hst : stackOf P scriptSig with
  | nil =>
    rw [hst] at hne
    exact absurd rfl hne
  | cons top rest => simp [pushAll]

end

section

variable {P : Primitives} {checker : BaseSignatureChecker} {scriptPubKey script good other : CScript}
  {txType : txnouttype} {vSolutions sigs : List Bytes}
  (hscript : signedScript scriptPubKey (stackOf P good) = (script, sigs))
  (hsolver : solver script = (true, txType, vSolutions))

include hscript hsolver

theorem head_ne_nil (hspk : isPayToScriptHash scriptPubKey = true) :
    (stackOf P good).headD [] = script ∧ script ≠ [] ∧ (stackOf P good).tail = sigs := by
  rw [signedScript, if_pos hspk] at hscript
  obtain ⟨hhead, htail⟩ := Prod.mk.inj hscript
  refine ⟨hhead, ?_, htail⟩
  rintro rfl
  cases hsolver

theorem not_blank : ¬Blank P scriptPubKey good := by
  rintro ⟨hspk, hnil⟩
  obtain ⟨hhead, hne, -⟩ := head_ne_nil hscript hsolver hspk
  exact hne (hhead ▸ hnil)

theorem redeem_fits (hpush : isPushOnly good = true) (haccepts : Accepts P checker scriptPubKey (stackOf P good))
    (hspk : isPayToScriptHash scriptPubKey = true) :
    script.length ≤ MAX_SCRIPT_ELEMENT_SIZE ∧ (P.hash160 script).1 = (scriptPubKey.drop 2).take 20 := by
  obtain ⟨hhead, -, -⟩ := head_ne_nil hscript hsolver hspk
  obtain ⟨hstack, -, hhash⟩ := haccepts.redeems hspk
  obtain ⟨top, st, hst⟩ := exists_cons_of_ne_nil hstack
  rw [hst, headD_cons] at hhead hhash
  rw [hhead] at hhash hst
  exact ⟨stackOf_short hpush script (by rw [hst]; exact mem_cons_self), hhash⟩

theorem combineSignatures_blank (h : Blank P scriptPubKey other) :
    combineSignatures P checker scriptPubKey good other = pushAll (stackOf P good) ∧
      combineSignatures P checker scriptPubKey other good = pushAll (stackOf P good) := by
  obtain ⟨hspk, hblank⟩ := h
  obtain ⟨hhead, hne, -⟩ := head_ne_nil hscript hsolver hspk
  have hspkSolver : solver scriptPubKey = (true, .scripthash, [(scriptPubKey.drop 2).take 20]) := by
    rw [solver, if_pos hspk]
  rw [combineSignatures_eq _ _ hspkSolver, combineSignatures_eq _ _ hspkSolver, combineStacks_scripthash,
    combineStacks_scripthash, if_pos hblank, if_pos hblank, hhead, if_neg hne]
  exact ⟨rfl, rfl⟩

theorem combineSignatures_first (htype : txType = .pubkey ∨ txType = .pubkeyhash)
    (hblank : ¬Blank P scriptPubKey other) (hlast : sigs.getLastD [] ≠ []) :
    combineSignatures P checker scriptPubKey good other = pushAll (stackOf P good) := by
  by_cases hspk : isPayToScriptHash scriptPubKey = true
  · obtain ⟨hhead, hne, htail⟩ := head_ne_nil hscript hsolver hspk
    rw [combineSignatures_wrapped hspk hhead hne fun h => hblank ⟨hspk, h⟩, hsolver, combineStacks_single htype,
      htail, if_neg hlast, pushAll_stackOf (hhead ▸ hne), htail, hhead]
  · rw [signedScript, if_neg hspk] at hscript
    obtain ⟨rfl, rfl⟩ := Prod.mk.inj hscript
    rw [combineSignatures_eq _ _ hsolver, combineStacks_single htype, if_neg hlast]

theorem combineSignatures_second (htype : txType = .pubkey ∨ txType = .pubkeyhash)
    (hsame : (signedScript scriptPubKey (stackOf P other)).1 = script)
    (hlast : (signedScript scriptPubKey (stackOf P other)).2.getLastD [] = []) :
    combineSignatures P checker scriptPubKey other good = pushAll (stackOf P good) := by
  by_cases hspk : isPayToScriptHash scriptPubKey = true
  · obtain ⟨hhead, hne, htail⟩ := head_ne_nil hscript hsolver hspk
    rw [signedScript, if_pos hspk] at hsame hlast
    rw [combineSignatures_wrapped hspk hsame hne (hhead ▸ hne), hsolver, combineStacks_single htype,
      if_pos hlast, pushAll_stackOf (hhead ▸ hne), hhead]
  · rw [signedScript, if_neg hspk] at hscript hsame hlast
    obtain ⟨rfl, rfl⟩ := Prod.mk.inj hscript
    rw [combineSignatures_eq _ _ hsolver, combineStacks_single htype, if_pos hlast]

omit hscript in
theorem verifyScript_merged
    (haccepts : isPayToScriptHash scriptPubKey = true → script.length ≤ MAX_SCRIPT_ELEMENT_SIZE ∧ (P.hash160 script).1 = (scriptPubKey.drop 2).take 20)
    (hfirst : (signedScript scriptPubKey (stackOf P first)).1 = script)
    (hsecond : ¬Blank P scriptPubKey second)
    (h : Signs P checker script (combineStacks checker script txType vSolutions (signedScript scriptPubKey (stackOf P first)).2 (signedScript scriptPubKey (stackOf P second)).2)) :
    verifyScript P p2shFlags checker (combineSignatures P checker scriptPubKey first second) scriptPubKey =
      true := by
  by_cases hspk : isPayToScriptHash scriptPubKey = true
  · obtain ⟨hlen, hhash⟩ := haccepts hspk
    have hne : script ≠ [] := by
      rintro rfl
      cases hsolver
    rw [signedScript, if_pos hspk] at hfirst h
    rw [signedScript, if_pos hspk] at h
    rw [combineSignatures_wrapped hspk hfirst hne fun hblank => hsecond ⟨hspk, hblank⟩, hsolver]
    exact h.wrapped hspk hlen hhash
  · rw [signedScript, if_neg hspk] at hfirst h
    rw [signedScript, if_neg hspk] at h
    subst hfirst
    rw [combineSignatures_eq _ _ hsolver]
    exact h.plain hspk

end

def lastByteCurve : Curve where
  getPubKey _ := []
  sign _ _ := []
  verify pubkey _ vchSig := vchSig == [pubkey.getLastD 0]

def lastByteSigned : BaseSignatureChecker :=
  transactionSignatureChecker constantHashes lastByteCurve ⟨1, [], [], 0⟩ 0

def payToScript : CScript := OP_HASH160 :: 0x14 :: replicate 20 0 ++ [OP_EQUAL]

def twoSigned : CScript := pushes [[], [1, 1], [2, 1], twoOfTwo]
def mistaken : CScript := pushes [[], [9, 1], twoOfTwo]

def payToKey : CScript := pushData (keyEnding 1) ++ [OP_CHECKSIG]

end Utsuite.CombineSignatures
