import Mathlib.Tactic.IntervalCases
import Utsuite.EquihashRounds
import Utsuite.EquihashVerify

namespace Utsuite.EquihashBasic

open ByteWords BitPack Equihash EquihashCodec EquihashTree EquihashVerify EquihashRounds PairTable List
open PerfectTree

def basicJoin (p : Params) (hashLen lenIndices : Nat) (a b : Row) : Option Row :=
  if distinctIndices a b hashLen lenIndices then
    some (mergeRows a b hashLen lenIndices p.collisionByteLength)
  else none

def finalSoln (p : Params) (hashLen lenIndices : Nat) (a b : Row) : Option Bytes :=
  let res := mergeRows a b hashLen lenIndices 0
  if distinctIndices a b hashLen lenIndices then
    some (getIndices res hashLen (2 * lenIndices) p.collisionBitLength)
  else none

def basicTable (sorter : Sorter) (p : Params) (generateHash : HashFunction p) (r : Nat) : List Row :=
  (collisionRounds sorter p (basicJoin p) r p.hashLength 4 (generateList p generateHash
    (fun hashIn i => fullStepRow hashIn p.collisionBitLength i) (initSize p) 0 [])).2.2

/-- `BasicSolve` when it is never cancelled. The last `else` stands in front of a line that is
commented out, and so it takes the final `return` as its branch. -/
def basicSolve (sorter : Sorter) (p : Params) (generateHash : HashFunction p)
    (validBlock : Bytes → Bool) : Outcome :=
  let X := generateList p generateHash (fun hashIn i => fullStepRow hashIn p.collisionBitLength i)
    (initSize p) 0 []
  let (hashLen, lenIndices, X) :=
    collisionRounds sorter p (basicJoin p) (p.K - 1) p.hashLength 4 X
  if X.length > 1 then
    let solns := finalRound sorter (finalSoln p hashLen lenIndices) hashLen X
    let (offered, accepted) := offerAll validBlock solns
    ⟨offered, if accepted then some true else none⟩
  else
    ⟨[], some false⟩

variable {p : Params} {H : HashFunction p}

theorem basicJoin_comm (hashLen lenIndices : Nat) (a b : Row) :
    basicJoin p hashLen lenIndices a b = basicJoin p hashLen lenIndices b a := by
  rw [basicJoin, basicJoin, distinctIndices_comm, mergeRows_comm]

theorem finalSoln_comm (hashLen lenIndices : Nat) (a b : Row) :
    finalSoln p hashLen lenIndices a b = finalSoln p hashLen lenIndices b a := by
  simp only [finalSoln]
  rw [distinctIndices_comm, mergeRows_comm]

def fullScheme (H : HashFunction p) : Scheme p where
  row := treeRow H
  indexLen := 4
  rowJoin := basicJoin p
  Siblings := SiblingsOk H
  siblings_lt h := h.2.1
  rowJoin_comm := basicJoin_comm
  rowJoin_row {r a b} hr ha hb hra hrb hlt c := by
    rw [basicJoin, mergeRows_treeRow hr ha hb hra hrb hlt, SiblingsOk, ha.height,
      ← hasCollision_treeRow hr ha hb, ← distinctIndices_treeRow (H := H) ha hb hra hrb]
    split
    · next h => simp [h, hlt]
    · next h => simp [h]

def Subtree (H : HashFunction p) (r : Nat) (t : LeafTree Nat) : Prop :=
  t.Perfect r ∧ InRange p t ∧ Canonical H t

theorem subtree_succ_iff :
    Subtree H (r + 1) t ↔ ∃ a b, Subtree H r a ∧ Subtree H r b ∧ SiblingsOk H a b ∧ .node a b = t :=
  (fullScheme H).level_succ_iff

/-- The verifier accepts the encodings of canonical trees whose last bits are zero, and nothing
else. -/
theorem isValidSolution_iff_subtree :
    isValidSolution p H soln = some true ↔ ∃ t, Subtree H p.K t ∧
      chunk p p.K (hashSum H t) = 0 ∧
      getMinimalFromIndices t.leaves p.collisionBitLength = soln := by
  rw [isValidSolution_eq_true_iff]
  constructor
  · rintro ⟨hlen, hvalid⟩
    have hcount := getIndicesFromMinimal_length p hlen
    obtain ⟨hcanonical, hzero⟩ := (validSolution_iff hcount).mp hvalid
    refine ⟨_, ⟨ofList_perfect _ _, ?_, hcanonical⟩, hzero, ?_⟩
    · rw [InRange, ofList_leaves hcount]
      exact getIndicesFromMinimal_lt p hlen
    · rw [ofList_leaves hcount, getMinimal_getIndices p hlen]
  · rintro ⟨t, ⟨hperfect, hrange, hcanonical⟩, hzero, rfl⟩
    have hcount := hperfect.length_leaves
    refine ⟨getMinimalFromIndices_length p hcount hrange, ?_⟩
    have htree : ofList p.K t.leaves = t :=
      (ofList_perfect _ _).leaves_injective hperfect (ofList_leaves hcount)
    rw [getIndices_getMinimal p hcount hrange, validSolution_iff hcount, htree]
    exact ⟨hcanonical, hzero⟩

section

variable {r : Nat} {a b : LeafTree Nat}

theorem finalSoln_treeRow (ha : Subtree H r a) (hb : Subtree H r b) (hlt : a.leaves < b.leaves) :
    hasCollision (treeRow H a) (treeRow H b) (hashLenAt p r) = true ∧
        finalSoln p (hashLenAt p r) (lenIndicesAt 4 r) (treeRow H a) (treeRow H b) = some soln ↔
      (∀ j, r ≤ j → j ≤ p.K → chunk p j (hashSum H a) = chunk p j (hashSum H b)) ∧
        List.Disjoint a.leaves b.leaves ∧
        getMinimalFromIndices (LeafTree.node a b).leaves p.collisionBitLength = soln := by
  have hdistinct := distinctIndices_treeRow (H := H) ha.1 hb.1 ha.2.1 hb.2.1
  have hnode : (LeafTree.node a b).Perfect (r + 1) := ⟨ha.1, hb.1⟩
  have hindices : getIndices (mergeRows (treeRow H a) (treeRow H b) (hashLenAt p r)
      (lenIndicesAt 4 r) 0) (hashLenAt p r) (2 * lenIndicesAt 4 r) p.collisionBitLength =
      getMinimalFromIndices (LeafTree.node a b).leaves p.collisionBitLength := by
    rw [treeRow_eq ha.1, treeRow_eq hb.1, mergeRows_untrimmed (indexBytes_length ha.1)
      (indexBytes_length hb.1), mergedIndices_indexBytes ha.1 hb.1 ha.2.1 hb.2.1 hlt,
      lenIndicesAt_succ, getIndices_row hnode]
  rw [← hasCollision_rest (u := indexBytes a) (v := indexBytes b), ← treeRow_eq ha.1,
    ← treeRow_eq hb.1, ← hdistinct]
  simp only [finalSoln, hindices]
  split
  · next h => simp [h]
  · next h => simp [h]

theorem mem_finalRound_iff (sorter : Sorter) (h : (fullScheme H).Holds (p.K - 1) X ts) :
    soln ∈ finalRound sorter (finalSoln p (hashLenAt p (p.K - 1)) (lenIndicesAt 4 (p.K - 1)))
      (hashLenAt p (p.K - 1)) X ↔ isValidSolution p H soln = some true := by
  have hK : p.K - 1 + 1 = p.K := Nat.sub_add_cancel p.K_pos
  rw [(fullScheme H).mem_finalRound sorter (finalSoln_comm _ _) h, isValidSolution_iff_subtree]
  constructor
  · rintro ⟨a, b, ha, hb, hlt, hsoln⟩
    obtain ⟨hchunks, hdisjoint, hsoln⟩ := (finalSoln_treeRow ha hb hlt).mp hsoln
    have hfirst := hchunks (p.K - 1) le_rfl (by omega)
    rw [← ha.1.height] at hfirst
    have htree := subtree_succ_iff.mpr ⟨a, b, ha, hb, ⟨hfirst, hlt, hdisjoint⟩, rfl⟩
    rw [hK] at htree
    exact ⟨.node a b, htree, chunk_xor_eq_zero.mpr (hchunks p.K (by omega) le_rfl), hsoln⟩
  · rintro ⟨t, htree, hzero, hsoln⟩
    rw [← hK] at htree
    obtain ⟨a, b, ha, hb, ⟨hfirst, hlt, hdisjoint⟩, rfl⟩ := subtree_succ_iff.mp htree
    refine ⟨a, b, ha, hb, hlt, (finalSoln_treeRow ha hb hlt).mpr ⟨fun j hj hj' => ?_, hdisjoint,
      hsoln⟩⟩
    obtain rfl | rfl : j = p.K - 1 ∨ j = p.K := by omega
    · rwa [ha.1.height] at hfirst
    · exact chunk_xor_eq_zero.mp hzero

end

def AtMostOneSubtree (H : HashFunction p) : Prop :=
  ∀ s t, Subtree H (p.K - 1) s → Subtree H (p.K - 1) t → s = t

theorem not_valid_of_atMostOne (h : AtMostOneSubtree H) (soln : Bytes) :
    isValidSolution p H soln ≠ some true := by
  rw [Ne, isValidSolution_iff_subtree]
  rintro ⟨t, htree, -⟩
  rw [← Nat.sub_add_cancel p.K_pos] at htree
  obtain ⟨a, b, ha, hb, ⟨-, hlt, -⟩, -⟩ := subtree_succ_iff.mp htree
  rw [h a b ha hb] at hlt
  exact lt_irrefl _ hlt

/-- When the last table has more than one row, the function ends without a value unless a solution
is taken. -/
theorem basicSolve_cases (sorter : Sorter) (H : HashFunction p) :
    (AtMostOneSubtree H ∧ ∀ validBlock, basicSolve sorter p H validBlock = ⟨[], some false⟩) ∨
    (¬AtMostOneSubtree H ∧ ∃ solns,
      (∀ soln, soln ∈ solns ↔ isValidSolution p H soln = some true) ∧
      ∀ validBlock, basicSolve sorter p H validBlock =
        ⟨(offerAll validBlock solns).1,
          if (offerAll validBlock solns).2 then some true else none⟩) := by
  obtain ⟨hashLen, lenIndices, X, ts, hrounds, hholds, hlens⟩ :=
    (fullScheme H).rounds_holds sorter (p.K - 1) (by omega)
      ((fullScheme H).generateList_holds H
        (fun hashIn i => fullStepRow hashIn p.collisionBitLength i) indexRow_eq)
  rw [zero_add] at hholds hlens
  have hrounds' : collisionRounds sorter p (basicJoin p) (p.K - 1) p.hashLength 4 (generateList p H
      (fun hashIn i => fullStepRow hashIn p.collisionBitLength i) (initSize p) 0 []) =
      (hashLen, lenIndices, X) := by
    rw [← hrounds]
    rfl
  have hlen : X.length = ts.length := by rw [hholds.perm.length_eq, length_map]
  by_cases hmore : X.length > 1
  · right
    obtain ⟨rfl, rfl⟩ := hlens (by rintro rfl; simp at hmore)
    refine ⟨fun hone => ?_, _, fun soln => mem_finalRound_iff sorter hholds, fun validBlock => ?_⟩
    · match ts, hlen, hholds.nodup, hholds.mem_iff with
      | [], hlen, _, _ => simp [hlen] at hmore
      | [_], hlen, _, _ => simp [hlen] at hmore
      | s :: t :: _, _, hnodup, hmem =>
        have heq := hone s t ((hmem s).mp (by simp)) ((hmem t).mp (by simp))
        simp [heq] at hnodup
    · simp only [basicSolve, hrounds', if_pos hmore]
      rfl
  · left
    refine ⟨fun s t hs ht => ?_, fun validBlock => ?_⟩
    · have hs' := (hholds.mem_iff s).mpr hs
      have ht' := (hholds.mem_iff t).mpr ht
      match ts, hlen, hs', ht' with
      | [u], _, hs, ht => rw [mem_singleton.mp hs, mem_singleton.mp ht]
      | _ :: _ :: _, hlen, _, _ => simp [hlen] at hmore
    · simp only [basicSolve, hrounds', if_neg hmore]

/-- What a solver is for. It offers the solutions that `IsValidSolution` accepts, and tells whether
one of them was taken. -/
def AgreesWithVerifier (sorter : Sorter) (H : HashFunction p) : Prop :=
  (∀ soln, soln ∈ (basicSolve sorter p H fun _ => false).offered ↔
    isValidSolution p H soln = some true) ∧
  (basicSolve sorter p H fun _ => false).returned = some false ∧
  ∀ validBlock, (∃ soln ∈ (basicSolve sorter p H validBlock).offered, validBlock soln = true) →
    (basicSolve sorter p H validBlock).returned = some true

theorem basicSolve_offers (sorter : Sorter) (H : HashFunction p) :
    (∀ soln, soln ∈ (basicSolve sorter p H fun _ => false).offered ↔
      isValidSolution p H soln = some true) ∧
    ∀ validBlock, (∃ soln ∈ (basicSolve sorter p H validBlock).offered, validBlock soln = true) →
      (basicSolve sorter p H validBlock).returned = some true := by
  obtain ⟨hone, hsolve⟩ | ⟨-, solns, hsolns, hsolve⟩ := basicSolve_cases sorter H
  · refine ⟨fun soln => ?_, fun validBlock haccept => ?_⟩
    · rw [hsolve]
      simpa using not_valid_of_atMostOne hone soln
    · rw [hsolve] at haccept
      simp at haccept
  · refine ⟨fun soln => ?_, fun validBlock haccept => ?_⟩
    · rw [hsolve, offerAll_reject, hsolns]
    · rw [hsolve] at haccept ⊢
      simp only [offerAll_accepted haccept, if_true]

theorem basicSolve_returned (sorter : Sorter) (H : HashFunction p) :
    (basicSolve sorter p H fun _ => false).returned = some false ↔ AtMostOneSubtree H := by
  obtain ⟨hone, hsolve⟩ | ⟨hmore, solns, hsolns, hsolve⟩ := basicSolve_cases sorter H
  · simp [hsolve, hone]
  · simp [hsolve, offerAll_reject, hmore]

/-- `BasicSolve` agrees with the verifier exactly when the last table has at most one row. The
assertions on lengths hold, and the `int` counters of a round suffice exactly when there are few
trees of its height. -/
theorem basicSolve_agrees_iff (sorter : Sorter) (H : HashFunction p) :
    (AgreesWithVerifier sorter H ↔ AtMostOneSubtree H) ∧
      LengthAsserts p 4 p.fullWidth (p.K - 1) ∧
      MergeAsserts (hashLenAt p (p.K - 1)) (lenIndicesAt 4 (p.K - 1)) 0 p.fullWidth
        p.finalFullWidth ∧
      CompressAsserts (4 * 2 ^ p.K) p.solutionWidth (p.collisionBitLength + 1)
        (indexPad p.collisionBitLength) ∧
      ∀ r < p.K, (basicTable sorter p H r).length < 2 ^ 31 ↔ (fullScheme H).Few r := by
  obtain ⟨hoffers, haccept⟩ := basicSolve_offers sorter H
  refine ⟨?_, lengthAsserts (Nat.sub_le _ _) fun _ => full_fits,
    lastMerge_asserts (full_fits le_rfl) le_rfl, compressAsserts_indices p, fun r hr => ?_⟩
  · rw [← basicSolve_returned sorter]
    exact ⟨fun h => h.2.1, fun h => ⟨hoffers, h, haccept⟩⟩
  · exact (fullScheme H).table_fits_iff sorter ((fullScheme H).generateList_holds H _ indexRow_eq)
      hr.le

def hashOf (p : Params) (value : Nat → Nat) : HashFunction p := fun g =>
  ⟨(range p.indicesPerHashOutput).flatMap fun i =>
    beBytes (p.N / 8) (value (g * p.indicesPerHashOutput + i)), by
      rw [length_flatMap, Params.hashOutput, Nat.mul_div_assoc _ p.eight_dvd]
      simp⟩

theorem hashString_hashOf (value : Nat → Nat) (i : Nat) :
    hashString (hashOf p value) i = BitVec.ofNat p.N (value i) := by
  have hpos := indicesPerHashOutput_pos (p := p)
  have hpieces := pieces_flatMap (show 0 < p.N / 8 from
    Nat.div_pos (Nat.le_of_dvd N_pos p.eight_dvd) (by decide))
    (fun k => beBytes (p.N / 8) (value (i / p.indicesPerHashOutput * p.indicesPerHashOutput + k)))
    (by simp) (List.range p.indicesPerHashOutput)
  have hpart : hashPart p (hashOf p value (i / p.indicesPerHashOutput)).val
      (i % p.indicesPerHashOutput) = beBytes (p.N / 8) (value i) := by
    have hmod := Nat.mod_lt i hpos
    have hcount : (hashOf p value (i / p.indicesPerHashOutput)).val.length / (p.N / 8) =
        p.indicesPerHashOutput := by
      rw [(hashOf p value _).property, Params.hashOutput, Nat.mul_div_assoc _ p.eight_dvd,
        Nat.mul_div_cancel _ (Nat.div_pos (Nat.le_of_dvd N_pos p.eight_dvd) (by decide))]
    have hget := congrArg (fun l => l[i % p.indicesPerHashOutput]?) hpieces
    change (pieces (p.N / 8) (hashOf p value (i / p.indicesPerHashOutput)).val)[_]? = _ at hget
    rw [pieces, hcount] at hget
    simp only [getElem?_map, getElem?_range hmod, Option.map_some, Option.some.injEq,
      Nat.div_add_mod'] at hget
    rw [hashPart, Nat.mul_div_assoc _ p.eight_dvd, hget]
  rw [hashString, hpart, beValue_beBytes, show 256 = 2 ^ 8 from rfl, ← Nat.pow_mul,
    Nat.mul_div_cancel' p.eight_dvd]
  apply BitVec.eq_of_toNat_eq
  simp

def fourValue (i : Nat) : Nat :=
  i / 2 * 2 ^ 72 + i % 2 * (i / 4) * 2 ^ 48 + (if i % 4 = 3 then i / 4 else 0) * 2 ^ 24

def four (m : Nat) : LeafTree Nat :=
  .node (.node (.leaf (4 * m)) (.leaf (4 * m + 1))) (.node (.leaf (4 * m + 2)) (.leaf (4 * m + 3)))

theorem four_subtree (hm : m < 2) : Subtree (hashOf eh96_3 fourValue) 2 (four m) := by
  refine ⟨⟨⟨trivial, trivial⟩, trivial, trivial⟩, ?_, ?_⟩
  · intro i hi
    simp only [four, LeafTree.leaves, cons_append, nil_append, mem_cons,
      not_mem_nil, or_false] at hi
    have hsize : 2 ^ (eh96_3.collisionBitLength + 1) = 33554432 := by decide
    omega
  · simp only [four, Canonical, LeafTree.AllNodes, SiblingsOk, hashSum, LeafTree.fold, hashString_hashOf,
      LeafTree.height, LeafTree.leaves, true_and, disjoint_iff_ne]
    interval_cases m <;> decide +kernel

/-- For two trees over four indices the call ends without returning a value. -/
theorem basicSolve_without_return :
    (basicSolve mergeSorter eh96_3 (hashOf eh96_3 fourValue) fun _ => false).returned = none := by
  obtain ⟨hone, -⟩ | ⟨-, solns, -, hsolve⟩ := basicSolve_cases mergeSorter (hashOf eh96_3 fourValue)
  · have heq := hone (four 0) (four 1) (four_subtree (by decide)) (four_subtree (by decide))
    exact absurd heq (by decide)
  · rw [hsolve, offerAll_reject]
    rfl

end Utsuite.EquihashBasic
