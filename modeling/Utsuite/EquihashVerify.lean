import Utsuite.EquihashTree

namespace Utsuite.EquihashVerify

open ByteWords BitPack Equihash EquihashCodec EquihashTree PerfectTree List

variable {p : Params} {H : HashFunction p}

def SiblingsOk (H : HashFunction p) (a b : LeafTree Nat) : Prop :=
  chunk p a.height (hashSum H a) = chunk p a.height (hashSum H b) ∧ a.leaves < b.leaves ∧
    List.Disjoint a.leaves b.leaves

def Canonical (H : HashFunction p) (t : LeafTree Nat) : Prop := t.AllNodes (SiblingsOk H)

section

variable {r : Nat} {a b t : LeafTree Nat}

theorem leaves_lt_of_disjoint (hdisjoint : List.Disjoint a.leaves b.leaves)
    (hnot : ¬b.leaves < a.leaves) : a.leaves < b.leaves := by
  refine lt_of_le_of_ne (le_of_not_gt hnot) fun heq => ?_
  obtain ⟨i, hi⟩ := exists_mem_of_ne_nil _ a.leaves_ne_nil
  exact hdisjoint hi (heq ▸ hi)

theorem siblingsOk_iff (hr : r ≤ p.K) (ha : a.Perfect r) (hb : b.Perfect r) (hra : InRange p a)
    (hrb : InRange p b) :
    SiblingsOk H a b ↔
      hasCollision (treeRow H a) (treeRow H b) p.collisionByteLength = true ∧
      indicesBefore (treeRow H b) (treeRow H a) (hashLenAt p r) (lenIndicesAt 4 r) = false ∧
      distinctIndices (treeRow H a) (treeRow H b) (hashLenAt p r) (lenIndicesAt 4 r) = true := by
  rw [hasCollision_treeRow hr ha hb, ← Bool.not_eq_true, indicesBefore_treeRow hb ha hrb hra,
    distinctIndices_treeRow ha hb hra hrb, SiblingsOk, ha.height]
  constructor
  · rintro ⟨hchunk, hlt, hdisjoint⟩
    exact ⟨hchunk, not_lt_of_gt hlt, hdisjoint⟩
  · rintro ⟨hchunk, hnot, hdisjoint⟩
    exact ⟨hchunk, leaves_lt_of_disjoint hdisjoint hnot, hdisjoint⟩

end

section

variable {r : Nat}

theorem exists_pair (hlen : l.length = 2 * (m + 1)) :
    ∃ a b rest, l = a :: b :: rest ∧ rest.length = 2 * m := by
  match l, hlen with
  | a :: b :: rest, hlen => exact ⟨a, b, rest, rfl, by simp only [length_cons] at hlen; omega⟩

theorem allNodes_pairUp (hlen : ts.length = 2 * m) (h : ∀ t ∈ pairUp ts, t.AllNodes P) :
    ∀ t ∈ ts, t.AllNodes P := by
  induction m generalizing ts with
  | zero =>
    rw [eq_nil_of_length_eq_zero hlen]
    simp
  | succ m ih =>
    obtain ⟨a, b, ts, rfl, hlen'⟩ := exists_pair hlen
    have hroot := h (.node a b) mem_cons_self
    intro t ht
    simp only [mem_cons] at ht
    obtain rfl | rfl | ht := ht
    · exact hroot.1
    · exact hroot.2.1
    · exact ih hlen' (fun t ht => h t (mem_cons_of_mem _ ht)) t ht

theorem allNodes_iterate (hlen : ts.length = 2 ^ m) (h : ∀ t ∈ pairUp^[m] ts, t.AllNodes P) :
    ∀ t ∈ ts, t.AllNodes P := by
  induction m generalizing ts with
  | zero => exact h
  | succ m ih =>
    have hlen' : ts.length = 2 * 2 ^ m := by rw [hlen, pow_succ']
    exact allNodes_pairUp hlen' (ih (pairUp_length hlen') h)

theorem checkPairs_treeRows (hr : r ≤ p.K) (hlen : ts.length = 2 * m)
    (hperfect : ∀ t ∈ ts, t.Perfect r) (hrange : ∀ t ∈ ts, InRange p t)
    (hcanonical : ∀ t ∈ ts, Canonical H t) :
    (checkPairs p (hashLenAt p r) (lenIndicesAt 4 r) (ts.map (treeRow H)) =
        .ok ((pairUp ts).map (treeRow H)) ∧ ∀ t ∈ pairUp ts, Canonical H t) ∨
      (checkPairs p (hashLenAt p r) (lenIndicesAt 4 r) (ts.map (treeRow H)) = .error (some false) ∧
        ¬∀ t ∈ pairUp ts, Canonical H t) := by
  induction m generalizing ts with
  | zero =>
    rw [eq_nil_of_length_eq_zero hlen]
    exact .inl ⟨rfl, by simp [pairUp]⟩
  | succ m ih =>
    obtain ⟨a, b, ts, rfl, hlen'⟩ := exists_pair hlen
    have ha := hperfect a (by simp)
    have hb := hperfect b (by simp)
    have hra := hrange a (by simp)
    have hrb := hrange b (by simp)
    have hok := siblingsOk_iff (H := H) hr ha hb hra hrb
    simp only [map_cons, checkPairs, pairUp]
    by_cases hsib : SiblingsOk H a b
    · obtain ⟨hcoll, hbefore, hdistinct⟩ := hok.mp hsib
      have hmerge := mergeRows_treeRow (H := H) hr ha hb hra hrb hsib.2.1
      simp only [hcoll, hbefore, hdistinct, hmerge, Bool.not_true, Bool.false_eq_true,
        if_false]
      obtain ⟨hrest, hall⟩ | ⟨hrest, hnot⟩ := ih hlen'
        (fun t ht => hperfect t (by simp [ht])) (fun t ht => hrange t (by simp [ht]))
        (fun t ht => hcanonical t (by simp [ht]))
      · left
        rw [hrest]
        refine ⟨rfl, fun t ht => ?_⟩
        obtain rfl | ht := mem_cons.mp ht
        · exact ⟨hcanonical a (by simp), hcanonical b (by simp), hsib⟩
        · exact hall t ht
      · right
        rw [hrest]
        exact ⟨rfl, fun hall => hnot fun t ht => hall t (mem_cons_of_mem _ ht)⟩
    · right
      refine ⟨?_, fun hall => hsib (hall _ mem_cons_self).2.2⟩
      rw [hok] at hsib
      split
      · rfl
      · split
        · rfl
        · split
          · rfl
          · next h₁ h₂ h₃ =>
              exact absurd ⟨by simpa using h₁, by simpa using h₂, by simpa using h₃⟩ hsib

theorem checkLevels_treeRows (hrounds : m < rounds) (hr : r + m = p.K) (hlen : ts.length = 2 ^ m)
    (hperfect : ∀ t ∈ ts, t.Perfect r) (hrange : ∀ t ∈ ts, InRange p t)
    (hcanonical : ∀ t ∈ ts, Canonical H t) :
    ∃ result, checkLevels p rounds (hashLenAt p r) (lenIndicesAt 4 r) (ts.map (treeRow H)) =
        some result ∧
      (result = true ↔
        ∀ t ∈ pairUp^[m] ts, Canonical H t ∧ chunk p p.K (hashSum H t) = 0) := by
  induction m generalizing r ts rounds with
  | zero =>
    obtain ⟨t, rfl⟩ := length_eq_one_iff.mp hlen
    obtain ⟨rounds, rfl⟩ := Nat.exists_eq_add_of_lt hrounds
    rw [add_zero] at hr
    refine ⟨isZero (treeRow H t) (hashLenAt p r), by simp [checkLevels], ?_⟩
    rw [isZero_treeRow (hperfect t (by simp))]
    simp only [Function.iterate_zero, id, mem_singleton, forall_eq,
      hcanonical t mem_cons_self, true_and, hr]
    exact ⟨fun h => h _ le_rfl le_rfl, fun h j hj hj' => le_antisymm hj' hj ▸ h⟩
  | succ m ih =>
    obtain ⟨rounds, rfl⟩ := Nat.exists_eq_succ_of_ne_zero (Nat.ne_zero_of_lt hrounds)
    have hlen' : ts.length = 2 * 2 ^ m := by rw [hlen, pow_succ']
    have hmore : (ts.map (treeRow H)).length > 1 := by
      have := Nat.two_pow_pos m
      rw [length_map]
      omega
    unfold checkLevels
    rw [if_pos hmore]
    obtain ⟨hpairs, hall⟩ | ⟨hpairs, hnot⟩ :=
      checkPairs_treeRows (H := H) (show r ≤ p.K by omega) hlen' hperfect hrange hcanonical
    · rw [hpairs, hashLenAt_succ (by omega), lenIndicesAt_succ]
      exact ih (by omega) (by omega) (pairUp_length hlen') (pairUp_perfect hperfect)
        (forall_pairUp (fun _ _ ha hb => inRange_node.mpr ⟨ha, hb⟩) hrange) hall
    · rw [hpairs]
      refine ⟨false, rfl, ?_⟩
      simp only [Bool.false_eq_true, false_iff]
      intro hroot
      exact hnot (allNodes_iterate (pairUp_length hlen') fun t ht => (hroot t ht).1)

end

section

def NodeOk (H : HashFunction p) (l r : LeafTree Nat) : Prop :=
  ZeroPrefix ((l.height + 1) * p.collisionBitLength) (hashSum H l ^^^ hashSum H r) ∧
    l.leaves < r.leaves

/-- The definition of a solution: the condition at every node of the tree, different indices, and
hashes that cancel out. -/
def ValidSolution (H : HashFunction p) (indices : List Nat) : Prop :=
  indices.length = 2 ^ p.K ∧ indices.Nodup ∧ (ofList p.K indices).AllNodes (NodeOk H) ∧
    (indices.map (hashString H)).foldr (· ^^^ ·) 0 = 0

variable {h : Nat} {t : LeafTree Nat}

theorem hashSum_eq_foldr (H : HashFunction p) (t : LeafTree Nat) :
    hashSum H t = (t.leaves.map (hashString H)).foldr (· ^^^ ·) 0 := by
  have hfold : ∀ (l : List (BitVec p.N)) (x : BitVec p.N),
      l.foldr (· ^^^ ·) x = l.foldr (· ^^^ ·) 0 ^^^ x := by
    intro l x
    induction l with
    | nil => simp
    | cons y l ih => simp only [foldr_cons, ih, BitVec.xor_assoc]
  induction t with
  | leaf i => simp [hashSum, LeafTree.fold, LeafTree.leaves]
  | node l r ihl ihr =>
    rw [LeafTree.leaves, map_append, foldr_append, hfold, ← ihl, ← ihr]
    rfl

theorem Canonical.chunk_eq_zero (ht : t.Perfect h) (hcanonical : Canonical H t) :
    ∀ j < h, chunk p j (hashSum H t) = 0 := by
  induction h generalizing t with
  | zero => exact fun j hj => absurd hj (Nat.not_lt_zero j)
  | succ h ih =>
    cases t with
    | leaf i => exact ht.elim
    | node l r =>
      intro j hj
      change chunk p j (hashSum H l ^^^ hashSum H r) = 0
      obtain rfl | hj := Nat.eq_or_lt_of_le (Nat.le_of_lt_succ hj)
      · exact chunk_xor_eq_zero.mpr (ht.1.height ▸ hcanonical.2.2.1)
      · rw [chunk_xor, ih ht.1 hcanonical.1 j hj, ih ht.2 hcanonical.2.1 j hj, Nat.xor_self]

theorem canonical_iff (ht : t.Perfect h) (hh : h ≤ p.K) :
    Canonical H t ↔ t.leaves.Nodup ∧ t.AllNodes (NodeOk H) := by
  induction h generalizing t with
  | zero =>
    cases t with
    | leaf i => simp [Canonical, LeafTree.AllNodes, LeafTree.leaves]
    | node l r => exact ht.elim
  | succ h ih =>
    cases t with
    | leaf i => exact ht.elim
    | node l r =>
      have hl := ih ht.1 (by omega)
      have hr := ih ht.2 (by omega)
      rw [LeafTree.leaves, nodup_append, ← disjoint_iff_ne]
      constructor
      · rintro ⟨hcl, hcr, hchunk, hlt, hdisjoint⟩
        have hnode : ZeroPrefix ((l.height + 1) * p.collisionBitLength)
            (hashSum H l ^^^ hashSum H r) := by
          rw [ht.1.height, zeroPrefix_iff (by omega)]
          exact Canonical.chunk_eq_zero (t := .node l r) ht ⟨hcl, hcr, hchunk, hlt, hdisjoint⟩
        exact ⟨⟨(hl.mp hcl).1, (hr.mp hcr).1, hdisjoint⟩, (hl.mp hcl).2, (hr.mp hcr).2, hnode,
          hlt⟩
      · rintro ⟨⟨hnl, hnr, hdisjoint⟩, hal, har, hzero, hlt⟩
        refine ⟨hl.mpr ⟨hnl, hal⟩, hr.mpr ⟨hnr, har⟩, ?_, hlt, hdisjoint⟩
        rw [ht.1.height, zeroPrefix_iff (by omega)] at hzero
        rw [ht.1.height]
        exact chunk_xor_eq_zero.mp (hzero h (Nat.lt_succ_self h))

theorem canonical_zero_iff (ht : t.Perfect p.K) :
    Canonical H t ∧ chunk p p.K (hashSum H t) = 0 ↔
      t.leaves.Nodup ∧ t.AllNodes (NodeOk H) ∧ hashSum H t = 0 := by
  rw [← and_assoc, ← canonical_iff ht le_rfl, eq_zero_iff_chunks]
  constructor
  · rintro ⟨hcanonical, hlast⟩
    refine ⟨hcanonical, fun j hj => ?_⟩
    obtain rfl | hj := Nat.eq_or_lt_of_le (Nat.le_of_lt_succ hj)
    · exact hlast
    · exact hcanonical.chunk_eq_zero ht j hj
  · rintro ⟨hcanonical, hzero⟩
    exact ⟨hcanonical, hzero p.K (Nat.lt_succ_self _)⟩

theorem iterate_pairUp_leaf {indices : List Nat} (hlen : indices.length = 2 ^ p.K) :
    pairUp^[p.K] (indices.map LeafTree.leaf) = [ofList p.K indices] := by
  have hcount : (indices.map LeafTree.leaf).length = 2 ^ p.K := by rw [length_map, hlen]
  obtain ⟨t, ht, hperfect, hleaves⟩ := iterate_pairUp (n := 0) hcount (by simp [LeafTree.Perfect])
  rw [zero_add] at hperfect
  rw [ht]
  congr 1
  apply hperfect.leaves_injective (ofList_perfect _ _)
  rw [hleaves, ofList_leaves hlen, flatMap_map]
  simp [LeafTree.leaves]

theorem validSolution_iff (hlen : indices.length = 2 ^ p.K) :
    ValidSolution H indices ↔
      Canonical H (ofList p.K indices) ∧ chunk p p.K (hashSum H (ofList p.K indices)) = 0 := by
  rw [canonical_zero_iff (ofList_perfect _ _), ValidSolution, hashSum_eq_foldr,
    ofList_leaves hlen]
  exact and_iff_right hlen

end

theorem isValidSolution_of_length {soln : Bytes} (hlen : soln.length = p.solutionWidth) :
    ∃ result, isValidSolution p H soln = some result ∧
      (result = true ↔ ValidSolution H (getIndicesFromMinimal soln p.collisionBitLength)) := by
  have hcount := getIndicesFromMinimal_length p hlen
  have hrange := getIndicesFromMinimal_lt p hlen
  have hrow : (getIndicesFromMinimal soln p.collisionBitLength).map (indexRow p H) =
      ((getIndicesFromMinimal soln p.collisionBitLength).map LeafTree.leaf).map (treeRow H) := by
    rw [map_map]
    exact map_congr_left fun i _ => indexRow_eq i
  have hleaves : ((getIndicesFromMinimal soln p.collisionBitLength).map LeafTree.leaf).length =
      2 ^ p.K := by rw [length_map, hcount]
  have hlevels := checkLevels_treeRows (H := H) (r := 0) (show p.K < 2 ^ p.K from
    Nat.lt_two_pow_self) (zero_add _) hleaves (by simp [LeafTree.Perfect])
    (by simpa [InRange, LeafTree.leaves] using hrange) (by simp [Canonical, LeafTree.AllNodes])
  rw [iterate_pairUp_leaf hcount] at hlevels
  obtain ⟨result, hresult, hiff⟩ := hlevels
  refine ⟨result, ?_, ?_⟩
  · rw [isValidSolution, if_neg (not_not.mpr hlen)]
    simp only [length_map, hcount]
    rw [hrow]
    simpa [hashLenAt, lenIndicesAt, Params.hashLength] using hresult
  · rw [hiff, validSolution_iff hcount]
    simp

theorem isValidSolution_eq_true_iff (H : HashFunction p) (soln : Bytes) :
    isValidSolution p H soln = some true ↔ soln.length = p.solutionWidth ∧
      ValidSolution H (getIndicesFromMinimal soln p.collisionBitLength) := by
  by_cases hlen : soln.length = p.solutionWidth
  · obtain ⟨result, hresult, hiff⟩ := isValidSolution_of_length (H := H) hlen
    rw [hresult, Option.some.injEq, hiff]
    exact (and_iff_right hlen).symm
  · rw [isValidSolution, if_pos hlen]
    simp [hlen]

theorem isValidSolution_isSome (H : HashFunction p) (soln : Bytes) :
    (isValidSolution p H soln).isSome := by
  by_cases hlen : soln.length = p.solutionWidth
  · obtain ⟨result, hresult, -⟩ := isValidSolution_of_length (H := H) hlen
    rw [hresult, Option.isSome_some]
  · rw [isValidSolution, if_pos hlen, Option.isSome_some]

/-- `IsValidSolution` returns for every input, and it returns true for the encodings of solutions
and for nothing else. None of the assertions on lengths on its way can fail. -/
theorem isValidSolution_correct (H : HashFunction p) (soln : Bytes) :
    (isValidSolution p H soln).isSome ∧
      (isValidSolution p H soln = some true ↔ soln.length = p.solutionWidth ∧
        ValidSolution H (getIndicesFromMinimal soln p.collisionBitLength)) ∧
      ExpandAsserts p.solutionWidth (4 * 2 ^ p.K) (p.collisionBitLength + 1)
        (indexPad p.collisionBitLength) ∧
      LengthAsserts p 4 p.finalFullWidth p.K :=
  ⟨isValidSolution_isSome H soln, isValidSolution_eq_true_iff H soln, expandAsserts_indices p,
    lengthAsserts le_rfl fun _ => finalFull_fits⟩

end Utsuite.EquihashVerify
