import Utsuite.InterpreterSafety
import Utsuite.ScriptRun
import Utsuite.Signing

namespace Utsuite.CombineMultisig

open ByteWords Transaction Script Interpreter GreedyMatch Standard ScriptBytes OpcodeRun ScriptRun List
open ScriptSign hiding txnouttype
open Signing (allSigs assignSig combineMultisig)
open InterpreterSafety (constantHashes)

theorem mem_allSigs : sig ∈ allSigs sigs1 sigs2 ↔ sig ∈ sigs1 ++ sigs2 ∧ sig ≠ [] := by
  rw [allSigs, mem_mergeSort, mem_dedup, mem_filter, decide_eq_true_iff]

theorem allSigs_comm (sigs1 sigs2 : List Bytes) : allSigs sigs1 sigs2 = allSigs sigs2 sigs1 := by
  have hsorted (l : List Bytes) : (l.mergeSort fun a b => decide (a ≤ b)).Pairwise (· ≤ ·) := by
    have htrans (a b c : Bytes) (hab : decide (a ≤ b) = true) (hbc : decide (b ≤ c) = true) :
        decide (a ≤ c) = true :=
      decide_eq_true (List.le_trans (of_decide_eq_true hab) (of_decide_eq_true hbc))
    have htotal (a b : Bytes) : (decide (a ≤ b) || decide (b ≤ a)) = true := by
      simpa using List.le_total a b
    exact (pairwise_mergeSort htrans htotal l).imp of_decide_eq_true
  refine List.Perm.eq_of_pairwise (fun a b _ _ hab hba => List.le_antisymm hab hba) (hsorted _) (hsorted _) ?_
  have hperm : ((sigs1 ++ sigs2).filter (· ≠ [])).dedup.Perm ((sigs2 ++ sigs1).filter (· ≠ [])).dedup :=
    (perm_append_comm.filter _).dedup
  exact (mergeSort_perm _ _).trans (hperm.trans (mergeSort_perm _ _).symm)

theorem any_allSigs (hempty : valid [] = false) :
    (allSigs sigs1 sigs2).any valid = (sigs1 ++ sigs2).any valid := by
  rw [Bool.eq_iff_iff, any_eq_true, any_eq_true]
  constructor
  · rintro ⟨sig, hsig, hvalid⟩
    exact ⟨sig, (mem_allSigs.mp hsig).1, hvalid⟩
  · rintro ⟨sig, hsig, hvalid⟩
    refine ⟨sig, mem_allSigs.mpr ⟨hsig, ?_⟩, hvalid⟩
    rintro rfl
    rw [hempty] at hvalid
    cases hvalid

section

variable {checker : BaseSignatureChecker} {script : CScript}
  {keys : List Bytes}

structure Assigned (checker : BaseSignatureChecker) (script : CScript) (keys done : List Bytes) (sigs : AList fun _ : Bytes => Bytes) : Prop where
  valid : ∀ key sig, sigs.lookup key = some sig → sig ∈ done ∧ checker.checkSig sig key script = true
  complete : ∀ key ∈ keys, ∀ sig ∈ done, checker.checkSig sig key script = true → key ∈ sigs

theorem Assigned.assignSig (h : Assigned checker script keys done sigs)
    (hone : ∀ key ∈ keys, ∀ key' ∈ keys, checker.checkSig sig key script = true →
      checker.checkSig sig key' script = true → key = key') :
    Assigned checker script keys (done ++ [sig]) (assignSig checker script keys sigs sig) := by
  rw [Signing.assignSig]
  split
  · next hnone =>
      refine ⟨fun key sig' hlookup => ?_, fun key hkey sig' hsig' hok => ?_⟩
      · obtain ⟨hmem, hvalid⟩ := h.valid key sig' hlookup
        exact ⟨mem_append_left _ hmem, hvalid⟩
      · obtain hdone | hlast := List.mem_append.mp hsig'
        · exact h.complete key hkey sig' hdone hok
        · obtain rfl := List.mem_singleton.mp hlast
          have hno := List.find?_eq_none.mp hnone key hkey
          simpa [hok] using hno
  · next key₀ hsome =>
      have hfound := find?_some hsome
      have hkey₀ := mem_of_find?_eq_some hsome
      rw [Bool.and_eq_true, decide_eq_true_iff] at hfound
      refine ⟨fun key sig' hlookup => ?_, fun key hkey sig' hsig' hok => ?_⟩
      · by_cases heq : key = key₀
        · rw [heq, AList.lookup_insert] at hlookup
          obtain rfl := Option.some.inj hlookup
          rw [heq]
          exact ⟨mem_append_right _ (mem_singleton_self _), hfound.2⟩
        · rw [AList.lookup_insert_ne heq] at hlookup
          obtain ⟨hmem, hvalid⟩ := h.valid key sig' hlookup
          exact ⟨mem_append_left _ hmem, hvalid⟩
      · rw [AList.mem_insert]
        obtain hdone | hlast := List.mem_append.mp hsig'
        · exact Or.inr (h.complete key hkey sig' hdone hok)
        · obtain rfl := List.mem_singleton.mp hlast
          exact Or.inl (hone key hkey key₀ hkey₀ hok hfound.2)

theorem assigned_foldl {all : List Bytes}
    (hone : ∀ sig ∈ all, ∀ key ∈ keys, ∀ key' ∈ keys, checker.checkSig sig key script = true →
      checker.checkSig sig key' script = true → key = key') :
    Assigned checker script keys all (all.foldl (assignSig checker script keys) ∅) := by
  suffices hfold : ∀ done sigs, Assigned checker script keys done sigs →
      Assigned checker script keys (done ++ all)
        (all.foldl (assignSig checker script keys) sigs) by
    refine hfold [] ∅ ⟨fun key sig h => ?_, fun key hkey sig h => ?_⟩
    · cases h
    · cases h
  induction all with
  | nil => exact fun done sigs h => by simpa using h
  | cons sig all ih =>
    intro done sigs h
    obtain ⟨hsig, hall⟩ := forall_mem_cons.mp hone
    rw [foldl_cons, ← singleton_append, ← append_assoc]
    exact ih hall _ _ (h.assignSig hsig)

end

section

variable {checker : BaseSignatureChecker} {script : CScript}
  {keys : List Bytes} {all : List Bytes} {sigs : AList fun _ : Bytes => Bytes}

theorem Assigned.length_filterMap (h : Assigned checker script keys all sigs) :
    (keys.filterMap sigs.lookup).length =
      keys.countP fun key => all.any fun sig => checker.checkSig sig key script := by
  rw [length_filterMap_eq_countP]
  refine countP_congr fun key hkey => ?_
  rw [AList.lookup_isSome, any_eq_true]
  constructor
  · intro hmem
    obtain ⟨sig, hsig⟩ := Option.isSome_iff_exists.mp (AList.lookup_isSome.mpr hmem)
    obtain ⟨hall, hvalid⟩ := h.valid key sig hsig
    exact ⟨sig, hall, hvalid⟩
  · rintro ⟨sig, hsig, hvalid⟩
    exact h.complete key hkey sig hsig hvalid

theorem Assigned.sublistForall₂ (h : Assigned checker script keys all sigs) (m : Nat) :
    List.SublistForall₂ (fun sig key => checker.checkSig sig key script = true)
      ((keys.filterMap sigs.lookup).take m) keys := by
  have hwhole : ∀ keys : List Bytes,
      List.SublistForall₂ (fun sig key => checker.checkSig sig key script = true)
        (keys.filterMap sigs.lookup) keys := by
    intro keys
    induction keys with
    | nil => exact .nil
    | cons key keys ih =>
      cases hlookup : sigs.lookup key with
      | none =>
        rw [filterMap_cons, hlookup]
        exact .cons_right ih
      | some sig =>
        rw [filterMap_cons, hlookup]
        exact .cons (h.valid key sig hlookup).2 ih
  obtain ⟨l, hl, hsub⟩ := sublistForall₂_iff.mp (hwhole keys)
  exact sublistForall₂_iff.mpr
    ⟨l.take m, forall₂_take m hl, (take_sublist m l).trans hsub⟩

def kept (checker : BaseSignatureChecker) (script : CScript) (keys : List Bytes) (m : Nat) (sigs1 sigs2 : List Bytes) : List Bytes :=
  (keys.filterMap ((allSigs sigs1 sigs2).foldl (assignSig checker script keys) ∅).lookup).take m

def merged (m : Nat) (sigs : List Bytes) : List Bytes :=
  [] :: (sigs ++ replicate (m - sigs.length) [])

theorem combineMultisig_eq (vSolutions sigs1 sigs2 : List Bytes) :
    combineMultisig checker script vSolutions sigs1 sigs2 =
      pushes (merged (required vSolutions)
        (kept checker script (pubkeys vSolutions) (required vSolutions) sigs1 sigs2)) := by
  have hzeros (k : Nat) : pushes (replicate k []) = replicate k 0 := by
    rw [pushes]
    induction k with
    | zero => rfl
    | succ k ih =>
      rw [replicate_succ, replicate_succ, flatMap_cons, ih]
      rfl
  rw [combineMultisig, merged, pushes_cons, pushes_append, hzeros]
  rfl

theorem length_merged {m : Nat} {sigs : List Bytes} (h : sigs.length ≤ m) :
    (merged m sigs).length = m + 1 := by
  rw [merged, length_cons, length_append, length_replicate]
  omega

theorem length_le_of_mem_merged {m k : Nat} {sigs : List Bytes} (h : ∀ sig ∈ sigs, sig.length ≤ k) :
    ∀ vch ∈ merged m sigs, vch.length ≤ k := by
  intro vch hvch
  simp only [merged, mem_cons, mem_append] at hvch
  obtain rfl | hvch | hvch := hvch
  · exact Nat.zero_le k
  · exact h vch hvch
  · rw [(mem_replicate.mp hvch).2]
    exact Nat.zero_le k

variable {m : Nat} {sigs1 sigs2 : List Bytes}

theorem length_kept_le : (kept checker script keys m sigs1 sigs2).length ≤ m := by
  rw [kept, length_take]
  exact Nat.min_le_left _ _

variable (hone : ∀ sig ∈ sigs1 ++ sigs2, ∀ key ∈ keys, ∀ key' ∈ keys,
  checker.checkSig sig key script = true → checker.checkSig sig key' script = true → key = key')

include hone

theorem assigned_allSigs : Assigned checker script keys (allSigs sigs1 sigs2)
    ((allSigs sigs1 sigs2).foldl (assignSig checker script keys) ∅) :=
  assigned_foldl fun sig hsig => hone sig (mem_allSigs.mp hsig).1

theorem mem_of_mem_kept : ∀ sig ∈ kept checker script keys m sigs1 sigs2, sig ∈ sigs1 ++ sigs2 := by
  intro sig hsig
  obtain ⟨key, -, hlookup⟩ := mem_filterMap.mp (mem_of_mem_take hsig)
  exact (mem_allSigs.mp ((assigned_allSigs hone).valid key sig hlookup).1).1

theorem kept_fits : List.SublistForall₂ (fun sig key => checker.checkSig sig key script = true)
    (kept checker script keys m sigs1 sigs2) keys :=
  (assigned_allSigs hone).sublistForall₂ m

theorem length_kept (hempty : ∀ key, checker.checkSig [] key script = false) :
    (kept checker script keys m sigs1 sigs2).length = min m (keys.countP fun key =>
      (sigs1 ++ sigs2).any fun sig => checker.checkSig sig key script) := by
  rw [kept, length_take, (assigned_allSigs hone).length_filterMap]
  congr 1
  refine countP_congr fun key _ => ?_
  rw [any_allSigs (hempty key)]

end

section

variable {P : Primitives} {flags : BitVec 32} {checker : BaseSignatureChecker} {script : CScript}

theorem leaves_merged (s : Multisig script) (hlax : Lax flags) (hfew : sigs.length ≤ s.m)
    (hlen : ∀ sig ∈ sigs, sig.length ≤ MAX_SCRIPT_ELEMENT_SIZE)
    (hne : ∀ sig ∈ sigs, sig ∉ s.keys.map Operation.vch)
    (hempty : ∀ key, checker.checkSig [] key script = false)
    (hfits : List.SublistForall₂ (fun sig key => checker.checkSig sig key script = true) sigs
      (s.keys.map Operation.vch)) :
    Leaves P flags checker script (merged s.m sigs).reverse rest ↔ rest = [] ∧ sigs.length = s.m := by
  have hsplit : (merged s.m sigs).reverse =
      (sigs ++ replicate (s.m - sigs.length) []).reverse ++ [] :: [] := by
    rw [merged, reverse_cons]
  have hsigsLen : ((sigs ++ replicate (s.m - sigs.length) []).reverse).length = s.m := by
    rw [length_reverse, length_append, length_replicate]
    omega
  have hdelete : ∀ sig ∈ (sigs ++ replicate (s.m - sigs.length) []).reverse,
      findAndDelete script (pushData sig) = script := by
    intro sig hsig
    have hshort : sig.length < 2 ^ 32 ∧ sig ∉ s.keys.map Operation.vch := by
      obtain hsig | hsig := mem_append.mp (mem_reverse.mp hsig)
      · exact ⟨(hlen sig hsig).trans_lt (by decide), hne sig hsig⟩
      · rw [(mem_replicate.mp hsig).2]
        refine ⟨by decide, fun h => ?_⟩
        obtain ⟨k, hk, hvch⟩ := mem_map.mp h
        exact ne_nil_of_isKeySize (s.keySize k hk) hvch
    refine findAndDelete_eq hshort.1 fun hpush => hshort.2 ?_
    exact mem_keys_of_pushes s hpush
  have h16 := decodeOP_N_le s.decodeN
  have hle := s.le
  rw [hsplit, leaves_multisig s hsigsLen hdelete (fun k _ => hlax.pubkey) (fun sig _ => hlax.signature) (fun _ => rfl), reverse_reverse,
    greedy_iff]
  constructor
  · rintro ⟨-, -, rfl, hfits'⟩
    refine ⟨rfl, by_contra fun hless => ?_⟩
    obtain ⟨key, -, hbad⟩ := exists_fits_of_sublistForall₂ hfits' (a := [])
      (mem_append_right _ (mem_replicate.mpr ⟨by omega, rfl⟩))
    rw [hempty] at hbad
    cases hbad
  · rintro ⟨rfl, hall⟩
    refine ⟨fun k _ => hlax.push, ?_, rfl, ?_⟩
    · rw [length_nil]
      omega
    · rw [hall, Nat.sub_self, replicate_zero, append_nil]
      exact hfits

end

theorem required_eq (hm : m ≤ 16) (rest : List Bytes) : required ([.ofNat m] :: rest) = m :=
  UInt8.toNat_ofNat_of_lt (lt_of_le_of_lt hm (by decide))

theorem pubkeys_eq (first last : Bytes) (keys : List Bytes) :
    pubkeys (first :: keys ++ [last]) = keys := by
  rw [pubkeys, cons_append, tail_cons, dropLast_concat]

theorem lax_none : Lax 0 := ⟨rfl, rfl, rfl, rfl, rfl⟩

section

variable {P : Primitives} {flags : BitVec 32} {checker : BaseSignatureChecker} {script : CScript}
  {vSolutions sigs1 sigs2 : List Bytes}

theorem combineMultisig_leaves (hlax : Lax flags) (hsolver : solver script = (true, .multisig, vSolutions))
    (hlen : ∀ sig ∈ sigs1 ++ sigs2, sig.length ≤ MAX_SCRIPT_ELEMENT_SIZE)
    (hempty : ∀ key, checker.checkSig [] key script = false)
    (hone : ∀ sig ∈ sigs1 ++ sigs2, ∀ key ∈ pubkeys vSolutions, ∀ key' ∈ pubkeys vSolutions,
      checker.checkSig sig key script = true → checker.checkSig sig key' script = true → key = key')
    (hne : ∀ sig ∈ sigs1 ++ sigs2, sig ∉ pubkeys vSolutions) :
    ∃ values, combineMultisig checker script vSolutions sigs1 sigs2 = pushes values ∧
      values.length ≤ 17 ∧ (∀ vch ∈ values, vch.length ≤ MAX_SCRIPT_ELEMENT_SIZE) ∧
      ∀ rest, Leaves P flags checker script values.reverse rest ↔
        rest = [] ∧ required vSolutions ≤ (pubkeys vSolutions).countP fun key =>
          (sigs1 ++ sigs2).any fun sig => checker.checkSig sig key script := by
  cases solver_form hsolver with
  | multisig hp2sh s =>
    have h16 := decodeOP_N_le s.decodeN
    have hle := s.le
    rw [pubkeys_eq] at hone hne
    rw [combineMultisig_eq, pubkeys_eq, cons_append, required_eq (hle.trans h16)]
    refine ⟨_, rfl, ?_⟩
    have hkept := length_kept (m := s.m) hone hempty
    have hmem := mem_of_mem_kept (m := s.m) hone
    have hfits := kept_fits (m := s.m) hone
    have hfew : (kept checker script (s.keys.map Operation.vch) s.m sigs1 sigs2).length ≤ s.m :=
      length_kept_le
    generalize kept checker script (s.keys.map Operation.vch) s.m sigs1 sigs2 = sigs at *
    have hshort : ∀ sig ∈ sigs, sig.length ≤ MAX_SCRIPT_ELEMENT_SIZE :=
      fun sig hsig => hlen sig (hmem sig hsig)
    refine ⟨?_, length_le_of_mem_merged hshort, fun rest => ?_⟩
    · rw [length_merged hfew]
      omega
    · rw [leaves_merged s hlax hfew hshort
        (fun sig hsig => hne sig (hmem sig hsig)) hempty hfits]
      refine and_congr_right fun _ => ?_
      omega

end

/-- The signatures that are merged do not depend on the order of the two scriptSigs, and there are
as many of them as keys have a valid one. -/
theorem combineMultisig_merges (P : Primitives) (checker : BaseSignatureChecker) {script : CScript} {vSolutions : List Bytes}
    (hsolver : solver script = (true, .multisig, vSolutions)) (sigs1 sigs2 : List Bytes)
    (hlen : ∀ sig ∈ sigs1 ++ sigs2, sig.length ≤ MAX_SCRIPT_ELEMENT_SIZE)
    (hempty : ∀ key, checker.checkSig [] key script = false)
    (hone : ∀ sig ∈ sigs1 ++ sigs2, ∀ key ∈ pubkeys vSolutions, ∀ key' ∈ pubkeys vSolutions,
      checker.checkSig sig key script = true → checker.checkSig sig key' script = true → key = key')
    (hne : ∀ sig ∈ sigs1 ++ sigs2, sig ∉ pubkeys vSolutions) :
    combineMultisig checker script vSolutions sigs1 sigs2 =
        combineMultisig checker script vSolutions sigs2 sigs1 ∧
      (verifyScript P 0 checker (combineMultisig checker script vSolutions sigs1 sigs2) script = true ↔
        required vSolutions ≤ (pubkeys vSolutions).countP fun key =>
          (sigs1 ++ sigs2).any fun sig => checker.checkSig sig key script) := by
  refine ⟨by rw [combineMultisig, combineMultisig, allSigs_comm], ?_⟩
  obtain ⟨values, hvalues, hfew, hshort, hleaves⟩ :=
    combineMultisig_leaves lax_none hsolver hlen hempty hone hne
  have heval : evalScript P 0 checker (pushes values) [] = .ok ⟨⟩ values.reverse :=
    evalScript_pushes hshort (fun h => by cases h) (hfew.trans (by decide))
  rw [hvalues, verifyScript_plain (fun h => by cases h) rfl rfl]
  constructor
  · rintro ⟨st, rest, heval', hrest, -⟩
    rw [heval] at heval'
    cases heval'
    exact ((hleaves rest).mp hrest).2
  · intro henough
    exact ⟨_, [], heval, (hleaves []).mpr ⟨rfl, henough⟩, fun _ => rfl⟩

def keyEnding (b : UInt8) : Bytes := 2 :: replicate 31 0 ++ [b]

def twoOfTwo : CScript :=
  0x52 :: pushData (keyEnding 1) ++ pushData (keyEnding 2) ++ [0x52, OP_CHECKMULTISIG]

def lastByteChecker : BaseSignatureChecker :=
  { BaseSignatureChecker.refusing with checkSig := fun sig key _ => sig == [key.getLastD 0] }

theorem combineMultisig_merges_twoOfTwo :
    solver twoOfTwo = (true, .multisig, [[2], keyEnding 1, keyEnding 2, [2]]) ∧
      combineMultisig lastByteChecker twoOfTwo [[2], keyEnding 1, keyEnding 2, [2]] [[2]] [[1]] =
        combineMultisig lastByteChecker twoOfTwo [[2], keyEnding 1, keyEnding 2, [2]] [[1]] [[2]] ∧
      verifyScript constantHashes 0 lastByteChecker (combineMultisig lastByteChecker twoOfTwo
        [[2], keyEnding 1, keyEnding 2, [2]] [[2]] [[1]]) twoOfTwo = true := by
  have hsolver : solver twoOfTwo = (true, .multisig, [[2], keyEnding 1, keyEnding 2, [2]]) := by
    decide +kernel
  have hmerges := combineMultisig_merges constantHashes lastByteChecker hsolver [[2]] [[1]]
    (by decide +kernel) (fun _ => rfl) (by decide +kernel) (by decide +kernel)
  exact ⟨hsolver, hmerges.1, hmerges.2.mpr (by decide +kernel)⟩

end Utsuite.CombineMultisig
