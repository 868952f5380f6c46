import Utsuite.EquihashBasic
import Utsuite.EquihashOptimised

namespace Utsuite.EquihashRecreate

open ByteWords BitPack Equihash EquihashCodec EquihashTree EquihashVerify EquihashRounds List
open EquihashBasic EquihashOptimised PairTable PerfectTree CarryStack

variable {p : Params} {H : HashFunction p}

theorem untruncateIndex_eq (hge : 8 ≤ ilen) (hle : ilen ≤ 32) (hj : j < 2 ^ (ilen - 8)) :
    untruncateIndex t j ilen = t.toNat * 2 ^ (ilen - 8) + j := by
  have hlt : t.toNat * 2 ^ (ilen - 8) < 2 ^ 32 := by
    calc t.toNat * 2 ^ (ilen - 8)
        < 2 ^ 8 * 2 ^ (ilen - 8) := Nat.mul_lt_mul_of_pos_right t.toNat_lt (Nat.two_pow_pos _)
      _ = 2 ^ ilen := by rw [← pow_add, Nat.add_sub_cancel' hge]
      _ ≤ 2 ^ 32 := Nat.pow_le_pow_right (by decide) hle
  rw [untruncateIndex, Nat.shiftLeft_eq, Nat.mod_eq_of_lt hlt, ← Nat.shiftLeft_eq,
    Nat.shiftLeft_add_eq_or_of_lt hj]

theorem truncateIndex_eq_iff (hge : 8 ≤ ilen) (hi : i < 2 ^ ilen) :
    truncateIndex i ilen = t ↔ i / 2 ^ (ilen - 8) = t.toNat := by
  have hlt : i / 2 ^ (ilen - 8) < 2 ^ 8 := by
    apply Nat.div_lt_of_lt_mul
    rwa [← pow_add, Nat.sub_add_cancel hge]
  rw [truncateIndex, ← UInt8.toNat_inj, UInt8.toNat_ofNat', Nat.shiftRight_eq_div_pow,
    show 0xff = 2 ^ 8 - 1 from rfl, Nat.and_two_pow_sub_one_eq_mod, Nat.mod_mod,
    Nat.mod_eq_of_lt hlt]

theorem recreateSize_eq (p : Params) : recreateSize p = 2 ^ (p.collisionBitLength + 1 - 8) := by
  have hb := bitLength_bounds p
  rw [recreateSize, untruncateIndex_eq (by omega) (by omega) (Nat.two_pow_pos _)]
  exact (add_zero _).trans (one_mul _)

theorem recreateRows_eq (H : HashFunction p) (t : UInt8) (rounds j : Nat)
    (hj : j + rounds ≤ recreateSize p) (hkept : j ≠ 0 →
      (t.toNat * recreateSize p + j) % p.indicesPerHashOutput ≠ 0 →
      tmpHash = (H ((t.toNat * recreateSize p + j) / p.indicesPerHashOutput)).val) :
    recreateRows p H t rounds j tmpHash = (range' j rounds).map fun j =>
      indexRow p H (t.toNat * recreateSize p + j) := by
  have hb := bitLength_bounds p
  induction rounds generalizing j tmpHash with
  | zero => rfl
  | succ rounds ih =>
    have hindex : untruncateIndex t j (p.collisionBitLength + 1) = t.toNat * recreateSize p + j := by
      rw [recreateSize_eq] at hj ⊢
      exact untruncateIndex_eq (by omega) (by omega) (by omega)
    generalize t.toNat * recreateSize p = base at hindex hkept ih ⊢
    have hhash : (if j = 0 ∨ (base + j) % p.indicesPerHashOutput = 0 then
        (H ((base + j) / p.indicesPerHashOutput)).val else tmpHash) =
        (H ((base + j) / p.indicesPerHashOutput)).val := by
      split
      · rfl
      · next hnot =>
          obtain ⟨hzero, hmod⟩ := not_or.mp hnot
          exact hkept hzero hmod
    simp only [recreateRows, hindex, hhash, range'_succ, map_cons]
    congr 1
    refine ih (j + 1) (by omega) fun _ hmod => ?_
    rw [← add_assoc] at hmod ⊢
    rw [Nat.succ_div_of_not_dvd (mt Nat.mod_eq_zero_of_dvd hmod)]

theorem startBranch_ic (H : HashFunction p) (soln : Bytes) (a : Nat) :
    (startBranch p H soln a).ic = (range' 0 (recreateSize p)).map fun j =>
      treeRow H (.leaf ((soln.getD a 0).toNat * recreateSize p + j)) := by
  rw [startBranch, recreateRows_eq H _ _ 0 (by rw [zero_add]) fun h => absurd rfl h]
  exact map_congr_left fun j _ => indexRow_eq _

/-- The indices that share a truncated index `t` are those between two multiples of a power of two.
-/
theorem truncateIndex_eq_iff_range :
    i < 2 ^ (p.collisionBitLength + 1) ∧ truncateIndex i (p.collisionBitLength + 1) = t ↔
      ∃ j < recreateSize p, t.toNat * recreateSize p + j = i := by
  rw [recreateSize_eq]
  have hb := bitLength_bounds p
  have hpow : 2 ^ (p.collisionBitLength + 1) = 2 ^ 8 * 2 ^ (p.collisionBitLength + 1 - 8) := by
    rw [← pow_add, Nat.add_sub_cancel' (by omega)]
  have hpos := Nat.two_pow_pos (p.collisionBitLength + 1 - 8)
  constructor
  · rintro ⟨hi, htrunc⟩
    rw [truncateIndex_eq_iff (by omega) hi] at htrunc
    refine ⟨i % 2 ^ (p.collisionBitLength + 1 - 8), Nat.mod_lt _ hpos, ?_⟩
    rw [← htrunc, Nat.div_add_mod']
  · rintro ⟨j, hj, rfl⟩
    have hlt : t.toNat * 2 ^ (p.collisionBitLength + 1 - 8) + j < 2 ^ (p.collisionBitLength + 1) := by
      rw [hpow]
      calc t.toNat * 2 ^ (p.collisionBitLength + 1 - 8) + j
          < (t.toNat + 1) * 2 ^ (p.collisionBitLength + 1 - 8) := by
            rw [Nat.succ_mul]
            omega
        _ ≤ 2 ^ 8 * 2 ^ (p.collisionBitLength + 1 - 8) := Nat.mul_le_mul_right _ t.toNat_lt
    refine ⟨hlt, ?_⟩
    rw [truncateIndex_eq_iff (by omega) hlt, mul_comm, Nat.mul_add_div hpos,
      Nat.div_eq_of_lt hj, add_zero]

def firstTruncated (p : Params) (t : LeafTree Nat) : UInt8 :=
  truncateIndex (t.leaves.headD 0) (p.collisionBitLength + 1)

def BranchesFit (p : Params) (lt rt : UInt8) (a b : LeafTree Nat) : Prop :=
  firstTruncated p a = lt ∧ firstTruncated p b = rt ∨
    firstTruncated p b = lt ∧ firstTruncated p a = rt

/-- The trees that the second phase makes from the `2 ^ r` truncated indices from `a` on. -/
def Recreated (H : HashFunction p) (soln : Bytes) : Nat → Nat → LeafTree Nat → Prop
  | 0, a, t => ∃ i, i < 2 ^ (p.collisionBitLength + 1) ∧
      truncateIndex i (p.collisionBitLength + 1) = soln.getD a 0 ∧ .leaf i = t
  | r + 1, a, t =>
    (∃ s, Recreated H soln r a s) ∧ (∃ s, Recreated H soln r (a + 2 ^ r) s) ∧
    ∃ x y, (Recreated H soln r a x ∨ Recreated H soln r (a + 2 ^ r) x) ∧
      (Recreated H soln r a y ∨ Recreated H soln r (a + 2 ^ r) y) ∧
      BranchesFit p (soln.getD a 0) (soln.getD (a + 2 ^ r) 0) x y ∧ SiblingsOk H x y ∧
      .node x y = t

theorem Recreated.subtree (h : Recreated H soln r a t) : Subtree H r t := by
  induction r generalizing a t with
  | zero =>
    obtain ⟨i, hi, -, rfl⟩ := h
    refine ⟨trivial, fun k hk => ?_, trivial⟩
    rwa [mem_singleton.mp hk]
  | succ r ih =>
    obtain ⟨-, -, x, y, hx, hy, -, hsiblings, rfl⟩ := h
    exact subtree_succ_iff.mpr ⟨x, y, hx.elim ih ih, hy.elim ih ih, hsiblings, rfl⟩

theorem recreated_of_subtree (ht : Subtree H r t)
    (htrunc : ∀ k < 2 ^ r, truncateIndex (t.leaves.getD k 0) (p.collisionBitLength + 1) =
      soln.getD (a + k) 0) : Recreated H soln r a t := by
  induction r generalizing a t with
  | zero =>
    cases t with
    | leaf i => exact ⟨i, ht.2.1 i mem_cons_self, htrunc 0 (by decide), rfl⟩
    | node x y => exact ht.1.elim
  | succ r ih =>
    obtain ⟨x, y, hx, hy, hsiblings, rfl⟩ := subtree_succ_iff.mp ht
    have hpow : 2 ^ (r + 1) = 2 ^ r + 2 ^ r := by rw [pow_succ, Nat.mul_two]
    have hlen := hx.1.length_leaves
    have hleft : ∀ k < 2 ^ r, truncateIndex (x.leaves.getD k 0) (p.collisionBitLength + 1) =
        soln.getD (a + k) 0 := by
      intro k hk
      have h := htrunc k (by omega)
      rwa [LeafTree.leaves, getD_append _ _ _ _ (by omega)] at h
    have hright : ∀ k < 2 ^ r, truncateIndex (y.leaves.getD k 0) (p.collisionBitLength + 1) =
        soln.getD (a + 2 ^ r + k) 0 := by
      intro k hk
      have h := htrunc (2 ^ r + k) (by omega)
      rwa [LeafTree.leaves, getD_append_right _ _ _ _ (by omega), hlen, Nat.add_sub_cancel_left,
        ← add_assoc] at h
    have hrx := ih hx hleft
    have hry := ih hy hright
    refine ⟨⟨x, hrx⟩, ⟨y, hry⟩, x, y, .inl hrx, .inr hry, .inl ⟨?_, ?_⟩, hsiblings, rfl⟩
    · have h := hleft 0 (Nat.two_pow_pos r)
      rwa [← headD_eq_getD, add_zero] at h
    · have h := hright 0 (Nat.two_pow_pos r)
      rwa [← headD_eq_getD, add_zero] at h

section

variable {r : Nat}

theorem branchJoin_eq (hlen lenIndices ilen : Nat) (lt rt : UInt8) (a b : Row) :
    branchJoin hlen lenIndices p.collisionByteLength ilen lt rt a b =
      if isValidBranch a hlen ilen lt && isValidBranch b hlen ilen rt ||
          isValidBranch b hlen ilen lt && isValidBranch a hlen ilen rt then
        basicJoin p hlen lenIndices a b
      else none := by
  rw [branchJoin, basicJoin, mergeRows_comm b a]
  cases distinctIndices a b hlen lenIndices with
  | false => simp
  | true =>
    cases isValidBranch a hlen ilen lt && isValidBranch b hlen ilen rt with
    | true => simp
    | false => simp

theorem branchJoin_comm (hlen lenIndices ilen : Nat) (lt rt : UInt8) (a b : Row) :
    branchJoin hlen lenIndices p.collisionByteLength ilen lt rt a b =
      branchJoin hlen lenIndices p.collisionByteLength ilen lt rt b a := by
  rw [branchJoin_eq, branchJoin_eq, Bool.or_comm, basicJoin_comm]

theorem isValidBranch_treeRow (ht : Subtree H r t) (z : UInt8) :
    isValidBranch (treeRow H t) (hashLenAt p r) (p.collisionBitLength + 1) z = true ↔
      firstTruncated p t = z := by
  have hfirst : arrayToEhIndex (rowIndices (treeRow H t) (hashLenAt p r) 4) =
      t.leaves.headD 0 := by
    have hword := ht.2.1.lt_word
    have hne := t.leaves_ne_nil
    rw [treeRow_eq ht.1, row, rowIndices, drop_left' (chunkBytes_length r _), indexBytes]
    cases hleaves : t.leaves with
    | nil => exact absurd hleaves hne
    | cons i is =>
      rw [hleaves] at hword
      rw [flatMap_cons, take_left' (by simp [ehIndexToArray]), arrayToEhIndex,
        ehIndexToArray, beValue_beBytes, Nat.mod_eq_of_lt (hword i mem_cons_self)]
      rfl
  rw [isValidBranch, beq_iff_eq, hfirst, firstTruncated]

theorem sortKey_mono (h : m ≤ n) (hle : sortKey n a ≤ sortKey n b) : sortKey m a ≤ sortKey m b := by
  have htake : ∀ a, sortKey m a = (sortKey n a).take m := by
    intro a
    rw [sortKey, sortKey, ← map_take, take_take, min_eq_left h]
  rw [htake a, htake b]
  exact take_le_take hle m

open Classical in
noncomputable def branchTree (H : HashFunction p) (lt rt : UInt8) (x y : LeafTree Nat) :
    Option (LeafTree Nat) :=
  if BranchesFit p lt rt x y then (fullScheme H).join x y else none

theorem branchTree_eq_some : branchTree H lt rt x y = some t ↔
    BranchesFit p lt rt x y ∧ (SiblingsOk H x y ∧ .node x y = t ∨ SiblingsOk H y x ∧ .node y x = t) := by
  rw [branchTree]
  split
  · next hfit => exact (fullScheme H).join_eq_some.trans (and_iff_right hfit).symm
  · next hfit => simp [hfit]

theorem branchTree_self (x : LeafTree Nat) : branchTree H lt rt x x = none := by
  refine Option.eq_none_iff_forall_not_mem.mpr fun t ht => ?_
  obtain ⟨-, ⟨hsiblings, -⟩ | ⟨hsiblings, -⟩⟩ := branchTree_eq_some.mp ht
  · exact lt_irrefl _ hsiblings.2.1
  · exact lt_irrefl _ hsiblings.2.1

theorem mem_branchTrees :
    t ∈ joinPairs (branchTree H lt rt) ts ↔ ∃ x y, x ∈ ts ∧ y ∈ ts ∧ BranchesFit p lt rt x y ∧
      SiblingsOk H x y ∧ .node x y = t := by
  have hcomm : ∀ x y, branchTree H lt rt x y = branchTree H lt rt y x := by
    intro x y
    apply Option.ext
    intro t
    rw [branchTree_eq_some, branchTree_eq_some]
    exact and_congr or_comm or_comm
  rw [mem_joinPairs_of_irrefl (fun x _ y _ => hcomm x y) fun x _ => branchTree_self x]
  simp only [branchTree_eq_some]
  constructor
  · rintro ⟨x, hx, y, hy, hfit, hsiblings | hsiblings⟩
    · exact ⟨x, y, hx, hy, hfit, hsiblings⟩
    · exact ⟨y, x, hy, hx, hfit.symm, hsiblings⟩
  · rintro ⟨x, y, hx, hy, hfit, hsiblings⟩
    exact ⟨x, hx, y, hy, hfit, .inl hsiblings⟩

theorem sameJoin_branchTree (hr : r ≤ p.K) (hx : Subtree H r x) (hy : Subtree H r y) :
    sameJoin (fun a b => hasCollision a b p.collisionByteLength)
        (branchJoin (hashLenAt p r) (lenIndicesAt 4 r) p.collisionByteLength
          (p.collisionBitLength + 1) lt rt) (treeRow H x) (treeRow H y) =
      (branchTree H lt rt x y).map (treeRow H) := by
  by_cases hne : x = y
  · subst hne
    obtain ⟨i, hi⟩ := exists_mem_of_ne_nil _ x.leaves_ne_nil
    have hnot : ¬distinctIndices (treeRow H x) (treeRow H x) (hashLenAt p r) (lenIndicesAt 4 r) =
        true := by
      rw [distinctIndices_treeRow hx.1 hx.1 hx.2.1 hx.2.1]
      exact fun h => h hi hi
    rw [branchTree_self, sameJoin, branchJoin, if_neg hnot, ite_self, Option.map_none]
  · have hiff : BranchesFit p lt rt x y ↔ _ ∧ _ ∨ _ ∧ _ := Iff.rfl
    rw [← isValidBranch_treeRow hx, ← isValidBranch_treeRow hx, ← isValidBranch_treeRow hy,
      ← isValidBranch_treeRow hy, ← Bool.and_eq_true, ← Bool.and_eq_true, ← Bool.or_eq_true] at hiff
    rw [sameJoin, branchJoin_eq, branchTree]
    by_cases hfit : BranchesFit p lt rt x y
    · rw [if_pos hfit, if_pos (hiff.mp hfit)]
      exact (fullScheme H).sameJoin_row hr hx hy hne
    · rw [if_neg hfit, if_neg (mt hiff.mpr hfit), ite_self, Option.map_none]

theorem collideBranches_perm (sorter : Sorter) (hr : r ≤ p.K) (hL : L.Perm (ts.map (treeRow H)))
    (hts : ∀ t ∈ ts, Subtree H r t) (lt rt : UInt8) :
    (collideBranches (sorter.sort (compareSR (hashLenAt p r)) L) (hashLenAt p r)
        (lenIndicesAt 4 r) p.collisionByteLength (p.collisionBitLength + 1) lt rt).Perm
      ((joinPairs (branchTree H lt rt) ts).map (treeRow H)) := by
  have hwidth : p.collisionByteLength ≤ hashLenAt p r :=
    Nat.le_mul_of_pos_left _ (by omega)
  have hsorted := (sorter.sorted (sortKey (hashLenAt p r)) (compareSR_iff_key _) L).imp
    fun {a b} h => sortKey_mono hwidth h
  have hperm := collide_sorted_perm (hasCollision_iff_key p.collisionByteLength)
    (branchJoin_comm (p := p) (hashLenAt p r) (lenIndicesAt 4 r) (p.collisionBitLength + 1) lt rt) hsorted
    ((sorter.perm _ L).trans hL)
  refine hperm.trans (List.Perm.of_eq (joinPairs_map (pairwise_of_forall_mem_list ?_)))
  exact fun x hx y hy => sameJoin_branchTree hr (hts x hx) (hts y hy)

end

/-- The trees of the rows in a list of the second phase. A tree is listed once for each way in which
it is found, so this also gives the length of the list. -/
noncomputable def recreations (H : HashFunction p) (soln : Bytes) : Nat → Nat → List (LeafTree Nat)
  | 0, a => (range' 0 (recreateSize p)).map fun j =>
      .leaf ((soln.getD a 0).toNat * recreateSize p + j)
  | r + 1, a => joinPairs (branchTree H (soln.getD a 0) (soln.getD (a + 2 ^ r) 0))
      (recreations H soln r (a + 2 ^ r) ++ recreations H soln r a)

section

variable {soln : Bytes} {r a : Nat}

/-- A branch of the second phase stands for the recreated trees. Its list holds their rows, and
there is at least one. -/
structure Represents (H : HashFunction p) (soln : Bytes) (r a : Nat) (s : Branch) : Prop where
  r_eq : s.r = r
  hashLen_eq : s.hashLen = hashLenAt p r
  lenIndices_eq : s.lenIndices = lenIndicesAt 4 r
  rti_eq : s.rti = a
  perm : s.ic.Perm ((recreations H soln r a).map (treeRow H))
  mem_iff : ∀ t, t ∈ recreations H soln r a ↔ Recreated H soln r a t
  nonempty : ∃ t, Recreated H soln r a t

theorem startBranch_represents : Represents H soln 0 a (startBranch p H soln a) := by
  have hmem : ∀ t, t ∈ recreations H soln 0 a ↔ Recreated H soln 0 a t := by
    intro t
    rw [recreations, Recreated, mem_map]
    simp only [← and_assoc, truncateIndex_eq_iff_range, mem_range'_1, zero_le, true_and, zero_add]
    constructor
    · rintro ⟨j, hj, rfl⟩
      exact ⟨_, ⟨j, hj, rfl⟩, rfl⟩
    · rintro ⟨_, ⟨j, hj, rfl⟩, rfl⟩
      exact ⟨j, hj, rfl⟩
  refine ⟨rfl, by simp [startBranch, hashLenAt, Params.hashLength], rfl, rfl, ?_, hmem,
    .leaf ((soln.getD a 0).toNat * recreateSize p + 0), (hmem _).mp ?_⟩
  · rw [startBranch_ic, recreations, map_map]
    rfl
  · exact mem_map.mpr ⟨0, by simp [recreateSize_eq], rfl⟩

theorem mergeBranch_represents (sorter : Sorter) (hr : r ≤ p.K) (hx : Represents H soln r a x)
    (hy : Represents H soln r (a + 2 ^ r) y) :
    (∃ s, mergeBranch sorter p soln y x.ic = some s ∧ Represents H soln (r + 1) a s) ∨
      (mergeBranch sorter p soln y x.ic = none ∧ ∀ t, ¬Recreated H soln (r + 1) a t) := by
  have hL : (y.ic ++ x.ic).Perm
      ((recreations H soln r (a + 2 ^ r) ++ recreations H soln r a).map (treeRow H)) := by
    rw [map_append]
    exact hy.perm.append hx.perm
  have hsub : ∀ t ∈ recreations H soln r (a + 2 ^ r) ++ recreations H soln r a, Subtree H r t := by
    intro t ht
    rw [mem_append, hx.mem_iff, hy.mem_iff] at ht
    exact ht.elim Recreated.subtree Recreated.subtree
  have hlti : a + 2 ^ r - 2 ^ y.r = a := by rw [hy.r_eq, Nat.add_sub_cancel]
  have hperm := collideBranches_perm sorter hr hL hsub (soln.getD a 0) (soln.getD (a + 2 ^ r) 0)
  rw [← hy.hashLen_eq, ← hy.lenIndices_eq] at hperm
  have hmem : ∀ t, t ∈ recreations H soln (r + 1) a ↔ Recreated H soln (r + 1) a t := by
    intro t
    rw [recreations, Recreated, mem_branchTrees, and_iff_right hx.nonempty, and_iff_right hy.nonempty]
    simp only [mem_append, hx.mem_iff, hy.mem_iff, or_comm]
  simp only [mergeBranch, hy.rti_eq, hlti]
  split
  · next hempty =>
      refine .inr ⟨rfl, fun t ht => ?_⟩
      rw [eq_nil_of_length_eq_zero hempty] at hperm
      have hrow := hperm.mem_iff.mpr (mem_map_of_mem ((hmem t).mpr ht))
      exact absurd hrow not_mem_nil
  · next hsome =>
      obtain ⟨row, hrow⟩ := exists_mem_of_length_pos (pos_of_ne_zero hsome)
      obtain ⟨t, ht, -⟩ := mem_map.mp (hperm.mem_iff.mp hrow)
      refine .inl ⟨_, rfl, ?_⟩
      exact
        { r_eq := by rw [hy.r_eq]
          hashLen_eq := by rw [hy.hashLen_eq, hashLenAt_succ hr]
          lenIndices_eq := by rw [hy.lenIndices_eq, lenIndicesAt_succ]
          rti_eq := rfl
          perm := hperm
          mem_iff := hmem
          nonempty := ⟨t, (hmem t).mp ht⟩ }

theorem node_represents (sorter : Sorter) (H : HashFunction p) (soln : Bytes) (hr : r ≤ p.K)
    (a : Nat) :
    (∃ s, node (mergeBranch sorter p soln) Branch.ic (startBranch p H soln) r a = some s ∧
        Represents H soln r a s) ∨
      (node (mergeBranch sorter p soln) Branch.ic (startBranch p H soln) r a = none ∧
        ∀ t, ¬Recreated H soln r a t) := by
  induction r generalizing a with
  | zero => exact .inl ⟨_, rfl, startBranch_represents⟩
  | succ r ih =>
    have hr' : r ≤ p.K := by omega
    rw [node]
    obtain ⟨x, hx, hrx⟩ | ⟨hx, hnone⟩ := ih hr' a
    · obtain ⟨y, hy, hry⟩ | ⟨hy, hnone⟩ := ih hr' (a + 2 ^ r)
      · rw [hx, hy]
        exact mergeBranch_represents sorter hr' hrx hry
      · rw [hx, hy]
        exact .inr ⟨rfl, fun t ht => ht.2.1.elim hnone⟩
    · rw [hx]
      exact .inr ⟨rfl, fun t ht => ht.1.elim hnone⟩

end

section

variable {soln : Bytes}

theorem mem_insertSoln : s ∈ insertSoln soln solns ↔ s = soln ∨ s ∈ solns := by
  induction solns with
  | nil => simp [insertSoln]
  | cons s' solns ih =>
    rw [insertSoln]
    split
    · exact mem_cons
    · next hnot =>
        split
        · rw [mem_cons, ih, mem_cons, or_left_comm]
        · next hnot' =>
            simp only [bytesLt, decide_eq_true_eq] at hnot hnot'
            have heq : soln = s' :=
              map_toNat_injective (le_antisymm (not_lt.mp hnot') (not_lt.mp hnot))
            rw [heq, mem_cons, or_self_left]

theorem mem_foldl_insertSoln {f : Row → Bytes} (rows : List Row) (solns : List Bytes) :
    s ∈ rows.foldl (fun solns row => insertSoln (f row) solns) solns ↔
      s ∈ solns ∨ ∃ row ∈ rows, f row = s := by
  induction rows generalizing solns with
  | nil => simp
  | cons row rows ih =>
    rw [foldl_cons, ih, mem_insertSoln]
    simp only [mem_cons, exists_eq_or_imp]
    rw [or_assoc, or_left_comm, eq_comm]

theorem recreate_spec (sorter : Sorter) (H : HashFunction p) (soln : Bytes) :
    ∃ solns, recreate sorter p H soln = some solns ∧ ∀ s, s ∈ solns ↔
      ∃ t, Recreated H soln p.K 0 t ∧
        getMinimalFromIndices t.leaves p.collisionBitLength = s := by
  rw [recreate, carryAll_empty (Nat.lt_succ_self p.K)]
  obtain ⟨b, hb, hrep⟩ | ⟨hb, hnone⟩ := node_represents sorter H soln le_rfl 0
  · rw [hb, Option.map_some]
    have hlen : ((replicate p.K none ++ [some b.ic]).length == p.K + 1) = true := by simp
    have hlast : (replicate p.K none ++ [some b.ic])[p.K]? = some (some b.ic) := by
      rw [getElem?_append_right (by simp)]
      simp
    refine ⟨b.ic.foldl (fun solns row => insertSoln
      (getIndices row b.hashLen b.lenIndices p.collisionBitLength) solns) [], ?_, fun s => ?_⟩
    · simp only [hlen, hlast]
    · rw [mem_foldl_insertSoln, hrep.hashLen_eq, hrep.lenIndices_eq]
      simp only [not_mem_nil, false_or, hrep.perm.mem_iff, mem_map, hrep.mem_iff]
      constructor
      · rintro ⟨_, ⟨t, ht, rfl⟩, hs⟩
        rw [treeRow_eq ht.subtree.1, getIndices_row ht.subtree.1] at hs
        exact ⟨t, ht, hs⟩
      · rintro ⟨t, ht, hs⟩
        refine ⟨_, ⟨t, ht, rfl⟩, ?_⟩
        rw [treeRow_eq ht.subtree.1, getIndices_row ht.subtree.1, hs]
  · rw [hb]
    refine ⟨[], rfl, fun s => ⟨fun h => absurd h not_mem_nil, ?_⟩⟩
    rintro ⟨t, ht, -⟩
    exact absurd ht (hnone t)

def Culled (H : HashFunction p) (partials : List Bytes) (s : Bytes) : Prop :=
  ∃ soln ∈ partials, ∃ t, Recreated H soln p.K 0 t ∧
    getMinimalFromIndices t.leaves p.collisionBitLength = s

theorem culled_cons :
    Culled H (soln :: partials) s ↔
      (∃ t, Recreated H soln p.K 0 t ∧
        getMinimalFromIndices t.leaves p.collisionBitLength = s) ∨ Culled H partials s := by
  simp [Culled]

theorem cull_subset (sorter : Sorter) (H : HashFunction p) (validBlock : Bytes → Bool)
    (h : s ∈ (cull sorter p H validBlock partials).offered) : Culled H partials s := by
  induction partials with
  | nil => exact absurd h not_mem_nil
  | cons soln partials ih =>
    obtain ⟨solns, hsolns, hmem⟩ := recreate_spec sorter H soln
    have hoffer : s ∈ (offerAll validBlock solns).1 → Culled H (soln :: partials) s := fun h =>
      culled_cons.mpr (.inl ((hmem s).mp (offerAll_subset validBlock solns h)))
    simp only [cull, hsolns] at h
    split at h
    · exact hoffer h
    · obtain h | h := mem_append.mp h
      · exact hoffer h
      · exact culled_cons.mpr (.inr (ih h))

theorem cull_reject (sorter : Sorter) (H : HashFunction p) :
    s ∈ (cull sorter p H (fun _ => false) partials).offered ↔ Culled H partials s := by
  refine ⟨cull_subset sorter H _, fun h => ?_⟩
  induction partials with
  | nil =>
    obtain ⟨_, hmem, -⟩ := h
    exact absurd hmem not_mem_nil
  | cons soln partials ih =>
    obtain ⟨solns, hsolns, hmem⟩ := recreate_spec sorter H soln
    simp only [cull, hsolns, offerAll_reject, Bool.false_eq_true, if_false]
    obtain h | h := culled_cons.mp h
    · exact mem_append_left _ ((hmem s).mpr h)
    · exact mem_append_right _ (ih h)

theorem optimisedSolve_offered (sorter : Sorter) (H : HashFunction p) :
    s ∈ (optimisedSolve sorter p H fun _ => false).offered ↔
      ∃ soln, PartialSolution H soln ∧ ∃ t, Recreated H soln p.K 0 t ∧
        getMinimalFromIndices t.leaves p.collisionBitLength = s := by
  rw [optimisedSolve, cull_reject, Culled]
  simp only [mem_partialSolns]

end

/-- A recreated tree is accepted by the verifier exactly when its last bits are zero. -/
theorem isValidSolution_recreated (ht : Recreated H soln p.K 0 t) :
    isValidSolution p H (getMinimalFromIndices t.leaves p.collisionBitLength) = some true ↔
      chunk p p.K (hashSum H t) = 0 := by
  rw [isValidSolution_iff_subtree]
  constructor
  · rintro ⟨t', ht', hzero, heq⟩
    have hleaves : t'.leaves = t.leaves := by
      rw [← getIndices_getMinimal p ht'.1.length_leaves ht'.2.1, heq,
        getIndices_getMinimal p ht.subtree.1.length_leaves ht.subtree.2.1]
    rwa [← ht'.1.leaves_injective ht.subtree.1 hleaves]
  · exact fun hzero => ⟨t, ht.subtree, hzero, rfl⟩

theorem branchList_length (sorter : Sorter) (hr : r ≤ p.K)
    (hx : node (mergeBranch sorter p soln) Branch.ic (startBranch p H soln) r a = some x)
    (hy : node (mergeBranch sorter p soln) Branch.ic (startBranch p H soln) r (a + 2 ^ r) = some y) :
    (y.ic ++ x.ic).length =
      (recreations H soln r (a + 2 ^ r) ++ recreations H soln r a).length := by
  have hrep : ∀ {b s}, node (mergeBranch sorter p soln) Branch.ic (startBranch p H soln) r b =
      some s → s.ic.length = (recreations H soln r b).length := by
    intro b s hs
    obtain ⟨s', hs', hrep⟩ | ⟨hnone, -⟩ := node_represents sorter H soln hr b
    · rw [hs] at hs'
      cases hs'
      rw [hrep.perm.length_eq, length_map]
    · rw [hs] at hnone
      cases hnone
  rw [length_append, length_append, hrep hx, hrep hy]

/-- `OptimisedSolve` offers valid solutions only, exactly when no near miss shares its truncated
indices with a partial solution. The assertions on lengths hold in both phases. The `int` counters
of the first phase suffice exactly when there are few trees of each height, and those of
`CollideBranches` run up to the number of trees that are recreated for its two lists. -/
theorem optimisedSolve_sound_iff (sorter : Sorter) (H : HashFunction p) :
    ((∀ validBlock, ∀ s ∈ (optimisedSolve sorter p H validBlock).offered,
        isValidSolution p H s = some true) ↔
      ∀ soln t, PartialSolution H soln → Recreated H soln p.K 0 t →
        chunk p p.K (hashSum H t) = 0) ∧
    (LengthAsserts p 1 p.truncatedWidth (p.K - 1) ∧
      MergeAsserts (hashLenAt p (p.K - 1)) (lenIndicesAt 1 (p.K - 1)) 0 p.truncatedWidth
        p.finalTruncatedWidth ∧
      LengthAsserts p 4 p.finalFullWidth p.K ∧
      CompressAsserts (4 * 2 ^ p.K) p.solutionWidth (p.collisionBitLength + 1)
        (indexPad p.collisionBitLength)) ∧
    (∀ r < p.K, (truncatedTable sorter p H r).length < 2 ^ 31 ↔ (truncatedScheme H).Few r) ∧
    ∀ soln r a x y, r < p.K →
      node (mergeBranch sorter p soln) Branch.ic (startBranch p H soln) r a = some x →
      node (mergeBranch sorter p soln) Branch.ic (startBranch p H soln) r (a + 2 ^ r) = some y →
      (y.ic ++ x.ic).length =
        (recreations H soln r (a + 2 ^ r) ++ recreations H soln r a).length := by
  refine ⟨⟨?_, ?_⟩, ⟨lengthAsserts (Nat.sub_le _ _) fun _ => truncated_fits,
    lastMerge_asserts (truncated_fits le_rfl) ?_, lengthAsserts le_rfl fun _ => finalFull_fits,
    compressAsserts_indices p⟩, fun r hr => ?_, fun soln r a x y hr => branchList_length sorter hr.le⟩
  · intro h soln t hsoln ht
    rw [← isValidSolution_recreated ht]
    exact h _ _ ((optimisedSolve_offered sorter H).mpr ⟨soln, hsoln, t, ht, rfl⟩)
  · intro h validBlock s hs
    obtain ⟨soln, hsoln, t, ht, rfl⟩ := cull_subset sorter H validBlock hs
    rw [isValidSolution_recreated ht]
    exact h soln t ((mem_partialSolns sorter).mp hsoln) ht
  · rw [one_mul]
    exact le_max_right _ _
  · exact (truncatedScheme H).table_fits_iff sorter (truncatedList_holds H) hr.le

/-- The indices `k * 2 ^ 17` form a solution, and those next to them miss it by the last bit. -/
def nearMissValue (i : Nat) : Nat :=
  let k := i / 2 ^ 17
  if k < 8 ∧ i % 2 ^ 17 < 2 then
    k / 2 * 2 ^ 72 + (if k % 2 = 1 then 1 + k / 4 else 0) * 2 ^ 48 +
      (if k % 4 = 3 then 5 else 0) * 2 ^ 24 + (if i = 1 then 1 else 0)
  else i / 2 * 2 ^ 72 + i % 2 * (i / 2) * 2 ^ 48

def nearMiss : HashFunction eh96_3 := hashOf eh96_3 nearMissValue

def halfTree (e m : Nat) : LeafTree Nat :=
  .node (.node (.leaf (4 * m * 2 ^ 17 + e)) (.leaf ((4 * m + 1) * 2 ^ 17 + e)))
    (.node (.leaf ((4 * m + 2) * 2 ^ 17 + e)) (.leaf ((4 * m + 3) * 2 ^ 17 + e)))

def eightTree (e : Nat) : LeafTree Nat := .node (halfTree e 0) (halfTree e 1)

theorem halfTree_inRange (he : e < 2) (hm : m < 2) : InRange eh96_3 (halfTree e m) := by
  intro i hi
  simp only [halfTree, LeafTree.leaves, cons_append, nil_append, mem_cons,
    not_mem_nil, or_false] at hi
  have hsize : 2 ^ (eh96_3.collisionBitLength + 1) = 33554432 := by decide
  omega

theorem halfTree_level (hm : m < 2) : (truncatedScheme nearMiss).Level 2 (halfTree 0 m) := by
  refine ⟨⟨⟨trivial, trivial⟩, trivial, trivial⟩, halfTree_inRange (by decide) hm,
    ⟨trivial, trivial, ?_⟩, ⟨trivial, trivial, ?_⟩, ?_⟩
  all_goals
    refine ⟨?_, ?_, not_and_of_not_right _ ?_⟩
    · simp only [nearMiss, hashSum, LeafTree.fold, hashString_hashOf]
      interval_cases m <;> decide +kernel
    · interval_cases m <;> decide
    · rw [PairedUp]
      interval_cases m <;> decide +kernel

theorem eightTree_partial : PartialSolution nearMiss (truncated eh96_3 (eightTree 0)) := by
  refine ⟨halfTree 0 0, halfTree 0 1, halfTree_level (by decide), halfTree_level (by decide), ?_, ?_,
    ?_, rfl⟩
  · decide
  · simp only [nearMiss, hashSum, LeafTree.fold, halfTree, hashString_hashOf]
    intro j hj hj'
    have hK : eh96_3.K = 3 := rfl
    obtain rfl | rfl : j = 2 ∨ j = 3 := by omega
    · decide +kernel
    · decide +kernel
  · rw [PairedUp]
    decide +kernel

theorem eightTree_subtree : Subtree nearMiss 3 (eightTree 1) := by
  refine ⟨⟨⟨⟨trivial, trivial⟩, trivial, trivial⟩, ⟨trivial, trivial⟩, trivial, trivial⟩,
    inRange_node.mpr ⟨halfTree_inRange (by decide) (by decide),
      halfTree_inRange (by decide) (by decide)⟩, ?_⟩
  simp only [eightTree, halfTree, nearMiss, Canonical, LeafTree.AllNodes, SiblingsOk, hashSum, LeafTree.fold,
    hashString_hashOf, LeafTree.height, LeafTree.leaves, true_and, disjoint_iff_ne]
  decide +kernel

/-- The near miss has the truncated indices of the solution, and so it is offered as well although
the verifier rejects it. -/
theorem optimisedSolve_offers_near_miss :
    ∃ s ∈ (optimisedSolve mergeSorter eh96_3 nearMiss fun _ => false).offered,
      isValidSolution eh96_3 nearMiss s = some false := by
  have ht : Recreated nearMiss (truncated eh96_3 (eightTree 0)) 3 0 (eightTree 1) := by
    refine recreated_of_subtree eightTree_subtree ?_
    decide +kernel
  have hlast : chunk eh96_3 3 (hashSum nearMiss (eightTree 1)) ≠ 0 := by
    simp only [eightTree, halfTree, nearMiss, hashSum, LeafTree.fold, hashString_hashOf]
    decide +kernel
  refine ⟨_, (optimisedSolve_offered mergeSorter nearMiss).mpr ⟨_, eightTree_partial, _, ht, rfl⟩, ?_⟩
  obtain ⟨result, hresult⟩ := Option.isSome_iff_exists.mp (isValidSolution_isSome nearMiss
    (getMinimalFromIndices (eightTree 1).leaves eh96_3.collisionBitLength))
  have hnot := mt (isValidSolution_recreated ht).mp hlast
  rw [hresult] at hnot
  cases result with
  | true => exact absurd rfl hnot
  | false => exact hresult

end Utsuite.EquihashRecreate
