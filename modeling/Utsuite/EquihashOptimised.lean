import Utsuite.CarryStack
import Utsuite.EquihashRounds

namespace Utsuite.EquihashOptimised

open ByteWords BitPack Equihash EquihashCodec EquihashTree EquihashRounds PairTable PerfectTree List
open CarryStack

def truncateIndex (i ilen : Nat) : UInt8 := .ofNat ((i >>> (ilen - 8)) &&& 0xff)

def untruncateIndex (t : UInt8) (r ilen : Nat) : Nat := (t.toNat <<< (ilen - 8)) % 2 ^ 32 ||| r

def truncatedStepRow (hashIn : Bytes) (cBitLen i ilen : Nat) : Row :=
  expandArray hashIn cBitLen 0 ++ [truncateIndex i ilen]

/-- The number of bytes that `IsProbablyDuplicate` checks off. Each of them is paired with the first
equal one behind it that is still free. -/
def countChecked : Bytes → Nat
  | [] => 0
  | z :: indices =>
    if z ∈ indices then countChecked (indices.erase z) + 2 else countChecked indices
termination_by indices => indices.length
decreasing_by
  · exact Nat.lt_succ_of_le length_erase_le
  · exact Nat.lt_succ_self _

def isProbablyDuplicate (indices : Bytes) : Bool := countChecked indices == indices.length

def pairStep (indices : Bytes) (s : List Bool × Nat) (z : Nat) : List Bool × Nat :=
  if s.1.getD z false then s
  else
    match (range' (z + 1) (indices.length - (z + 1))).find? fun y =>
      !s.1.getD y false && indices.getD z 0 == indices.getD y 0 with
    | some y => (s.1.set y true, s.2 + 2)
    | none => s

/-- `IsProbablyDuplicate` with its array of marks. `none` stands for the assertion on the number of
indices. -/
def isProbablyDuplicateMarks (MAX_INDICES : Nat) (indices : Bytes) : Option Bool :=
  if indices.length ≤ MAX_INDICES then
    let s := (range indices.length).foldl (pairStep indices) (replicate MAX_INDICES false, 0)
    some (s.2 == indices.length)
  else none

def unpaired (indices : Bytes) (checked : List Bool) (z : Nat) : Bytes :=
  ((range' z (indices.length - z)).filter fun y => !checked.getD y false).map (indices.getD · 0)

def truncatedJoin (p : Params) (hashLen lenIndices : Nat) (a b : Row) : Option Row :=
  let Xi := mergeRows a b hashLen lenIndices p.collisionByteLength
  if isZero Xi (hashLen - p.collisionByteLength) &&
      isProbablyDuplicate (rowIndices Xi (hashLen - p.collisionByteLength) (2 * lenIndices)) then
    none
  else some Xi

def partialJoin (hashLen lenIndices : Nat) (a b : Row) : Option Bytes :=
  let res := mergeRows a b hashLen lenIndices 0
  let soln := rowIndices res hashLen (2 * lenIndices)
  if isProbablyDuplicate soln then none else some soln

def truncatedTable (sorter : Sorter) (p : Params) (generateHash : HashFunction p) (r : Nat) :
    List Row :=
  (collisionRounds sorter p (truncatedJoin p) r p.hashLength 1 (generateList p generateHash
    (fun hashIn i => truncatedStepRow hashIn p.collisionBitLength i (p.collisionBitLength + 1))
    (initSize p) 0 [])).2.2

/-- The first phase of `OptimisedSolve`. The `else` at its end has no statement in the source and is
taken to be empty. -/
def partialSolns (sorter : Sorter) (p : Params) (generateHash : HashFunction p) : List Bytes :=
  let Xt := generateList p generateHash
    (fun hashIn i => truncatedStepRow hashIn p.collisionBitLength i (p.collisionBitLength + 1))
    (initSize p) 0 []
  let (hashLen, lenIndices, Xt) :=
    collisionRounds sorter p (truncatedJoin p) (p.K - 1) p.hashLength 1 Xt
  if Xt.length > 1 then finalRound sorter (partialJoin hashLen lenIndices) hashLen Xt else []

def recreateSize (p : Params) : Nat := untruncateIndex 1 0 (p.collisionBitLength + 1)

/-- The rows for all indices with one truncated index. A hash is kept until its last index has been
used. -/
def recreateRows (p : Params) (generateHash : HashFunction p) (t : UInt8) :
    Nat → Nat → Bytes → List Row
  | 0, _, _ => []
  | rounds + 1, j, tmpHash =>
    let newIndex := untruncateIndex t j (p.collisionBitLength + 1)
    let tmpHash := if j = 0 ∨ newIndex % p.indicesPerHashOutput = 0 then
      (generateHash (newIndex / p.indicesPerHashOutput)).val else tmpHash
    fullStepRow (hashPart p tmpHash (newIndex % p.indicesPerHashOutput)) p.collisionBitLength
      newIndex :: recreateRows p generateHash t rounds (j + 1) tmpHash

def isValidBranch (a : Row) (len ilen : Nat) (t : UInt8) : Bool :=
  truncateIndex (arrayToEhIndex (rowIndices a len 4)) ilen == t

def branchJoin (hlen lenIndices clen ilen : Nat) (lt rt : UInt8) (a b : Row) : Option Row :=
  if distinctIndices a b hlen lenIndices then
    if isValidBranch a hlen ilen lt && isValidBranch b hlen ilen rt then
      some (mergeRows a b hlen lenIndices clen)
    else if isValidBranch b hlen ilen lt && isValidBranch a hlen ilen rt then
      some (mergeRows b a hlen lenIndices clen)
    else none
  else none

def collideBranches (X : List Row) (hlen lenIndices clen ilen : Nat) (lt rt : UInt8) : List Row :=
  collide (fun a b => hasCollision a b clen) (branchJoin hlen lenIndices clen ilen lt rt) X

structure Branch where
  r : Nat
  hashLen : Nat
  lenIndices : Nat
  rti : Nat
  ic : List Row

def startBranch (p : Params) (generateHash : HashFunction p) (partialSoln : Bytes) (i : Nat) :
    Branch where
  r := 0
  hashLen := p.hashLength
  lenIndices := 4
  rti := i
  ic := recreateRows p generateHash (partialSoln.getD i 0) (recreateSize p) 0 []

def mergeBranch (sorter : Sorter) (p : Params) (partialSoln : Bytes) (s : Branch) (Xr : List Row) :
    Option Branch :=
  let ic := sorter.sort (compareSR s.hashLen) (s.ic ++ Xr)
  let lti := s.rti - 2 ^ s.r
  let ic := collideBranches ic s.hashLen s.lenIndices p.collisionByteLength
    (p.collisionBitLength + 1) (partialSoln.getD lti 0) (partialSoln.getD s.rti 0)
  if ic.length = 0 then none
  else some ⟨s.r + 1, s.hashLen - p.collisionByteLength, 2 * s.lenIndices, lti, ic⟩

def insertSoln (soln : Bytes) : List Bytes → List Bytes
  | [] => [soln]
  | s :: solns =>
    if bytesLt soln s then soln :: s :: solns
    else if bytesLt s soln then s :: insertSoln soln solns
    else s :: solns

/-- The second phase for one partial solution. `none` stands for a failed assertion or a list that
is absent. -/
def recreate (sorter : Sorter) (p : Params) (generateHash : HashFunction p) (partialSoln : Bytes) :
    Option (List Bytes) :=
  match carryAll (mergeBranch sorter p partialSoln) Branch.ic (p.K + 1)
      ((range (2 ^ p.K)).map (startBranch p generateHash partialSoln)) ([], none) with
  | none => some []
  | some (X, s) =>
    match X.length == p.K + 1, X[p.K]?, s with
    | true, some (some rows), some s =>
      some (rows.foldl (fun solns row =>
        insertSoln (getIndices row s.hashLen s.lenIndices p.collisionBitLength) solns) [])
    | _, _, _ => none

def cull (sorter : Sorter) (p : Params) (generateHash : HashFunction p)
    (validBlock : Bytes → Bool) : List Bytes → Outcome
  | [] => ⟨[], some false⟩
  | partialSoln :: rest =>
    match recreate sorter p generateHash partialSoln with
    | none => ⟨[], none⟩
    | some solns =>
      let (offered, accepted) := offerAll validBlock solns
      if accepted then ⟨offered, some true⟩
      else
        let outcome := cull sorter p generateHash validBlock rest
        ⟨offered ++ outcome.offered, outcome.returned⟩

def optimisedSolve (sorter : Sorter) (p : Params) (generateHash : HashFunction p)
    (validBlock : Bytes → Bool) : Outcome :=
  cull sorter p generateHash validBlock (partialSolns sorter p generateHash)

def PairedUp (l : Bytes) : Prop := ∀ z ∈ l, 2 ∣ l.count z

theorem pairedUp_iff (l : Bytes) : PairedUp l ↔ ∀ x, 2 ∣ l.count x := by
  refine ⟨fun h x => ?_, fun h x _ => h x⟩
  by_cases hx : x ∈ l
  · exact h x hx
  · rw [count_eq_zero_of_not_mem hx]
    exact dvd_zero 2

theorem pairedUp_erase (h : z ∈ l) : PairedUp (z :: l) ↔ PairedUp (l.erase z) := by
  have hcount : ∀ x, 2 ∣ (z :: l).count x ↔ 2 ∣ (l.erase z).count x := by
    intro x
    obtain rfl | hne := eq_or_ne x z
    · have hpos := count_pos_iff.mpr h
      rw [count_cons_self, count_erase_self]
      omega
    · rw [count_cons_of_ne hne.symm, count_erase_of_ne hne]
  rw [pairedUp_iff, pairedUp_iff]
  exact forall_congr' hcount

theorem countChecked_spec (l : Bytes) :
    countChecked l ≤ l.length ∧ (countChecked l = l.length ↔ PairedUp l) := by
  fun_induction countChecked l with
  | case1 => simp [PairedUp]
  | case2 z l h ih =>
    have hlen := length_erase_add_one h
    rw [pairedUp_erase h, ← ih.2, length_cons]
    exact ⟨by omega, by omega⟩
  | case3 z l h ih =>
    rw [length_cons]
    refine ⟨by omega, by omega, fun hpaired => ?_⟩
    have hone := hpaired z mem_cons_self
    rw [count_cons_self, count_eq_zero_of_not_mem h] at hone
    omega

theorem isProbablyDuplicate_iff (l : Bytes) : isProbablyDuplicate l = true ↔ PairedUp l := by
  rw [isProbablyDuplicate, beq_iff_eq, (countChecked_spec l).2]

section

variable {l : List Nat} {q : Nat → Bool} {f : Nat → UInt8} {indices : Bytes} {checked : List Bool}

theorem erase_first (hl : l.Nodup) (h : l.find? (fun i => q i && v == f i) = some y) :
    ((l.filter q).map f).erase v = (l.filter fun i => q i && i != y).map f := by
  induction l with
  | nil => cases h
  | cons i l ih =>
    obtain ⟨hi, hl⟩ := nodup_cons.mp hl
    rw [find?_cons] at h
    cases hq : q i with
    | false =>
      rw [hq] at h
      simpa [filter_cons, hq] using ih hl h
    | true =>
      by_cases hv : v = f i
      · obtain rfl : i = y := by simpa [hq, hv] using h
        have hrest : l.filter (fun j => q j && j != i) = l.filter q :=
          filter_congr fun j hj => by simp [ne_of_mem_of_not_mem hj hi]
        simp [hq, hv, hrest]
      · rw [hq, Bool.true_and, beq_false_of_ne hv] at h
        have hy : i ≠ y := fun hiy => hi (hiy ▸ mem_of_find?_eq_some h)
        simp [hq, hy, Ne.symm hv, ih hl h]

theorem unpaired_set (hy : y < checked.length) :
    unpaired indices (checked.set y true) z = ((range' z (indices.length - z)).filter fun i =>
      !checked.getD i false && i != y).map (indices.getD · 0) := by
  rw [unpaired]
  congr 1
  apply filter_congr
  intro i _
  obtain rfl | hne := eq_or_ne i y
  · simp [hy]
  · simp [hne, hne.symm]

theorem pairStep_spec (hz : z < indices.length) (hlen : indices.length ≤ s.1.length) :
    (pairStep indices s z).1.length = s.1.length ∧
      (pairStep indices s z).2 + countChecked (unpaired indices (pairStep indices s z).1 (z + 1)) =
        s.2 + countChecked (unpaired indices s.1 z) := by
  have hrange : range' z (indices.length - z) = z :: range' (z + 1) (indices.length - (z + 1)) := by
    rw [show indices.length - z = indices.length - (z + 1) + 1 by omega, range'_succ]
  rw [pairStep]
  cases hchecked : s.1.getD z false with
  | true =>
    have hrest : unpaired indices s.1 z = unpaired indices s.1 (z + 1) := by
      rw [unpaired, hrange, filter_cons_of_neg (by rw [hchecked]; decide)]
      rfl
    rw [if_pos rfl, hrest]
    exact ⟨rfl, rfl⟩
  | false =>
    have hrest : unpaired indices s.1 z = indices.getD z 0 :: unpaired indices s.1 (z + 1) := by
      rw [unpaired, hrange, filter_cons_of_pos (by rw [hchecked]; rfl)]
      rfl
    rw [if_neg (by decide), hrest, countChecked]
    cases hfind : (range' (z + 1) (indices.length - (z + 1))).find? fun y =>
      !s.1.getD y false && indices.getD z 0 == indices.getD y 0 with
    | none =>
      rw [if_neg]
      · exact ⟨rfl, rfl⟩
      · intro hmem
        obtain ⟨y, hy, heq⟩ := mem_map.mp hmem
        obtain ⟨hy, hfree⟩ := mem_filter.mp hy
        apply find?_eq_none.mp hfind y hy
        rw [hfree, heq, beq_self_eq_true]
        rfl
    | some y =>
      have hmem := mem_of_find?_eq_some hfind
      obtain ⟨hfree, heq⟩ := Bool.and_eq_true _ _ ▸ find?_some hfind
      have hy : y < s.1.length := by
        rw [mem_range'_1] at hmem
        omega
      refine ⟨length_set, ?_⟩
      dsimp only
      have hpartner : indices.getD z 0 ∈ unpaired indices s.1 (z + 1) :=
        mem_map.mpr ⟨y, mem_filter.mpr ⟨hmem, hfree⟩, (beq_iff_eq.mp heq).symm⟩
      rw [if_pos hpartner, unpaired_set hy, ← erase_first nodup_range' hfind, add_right_comm, add_assoc]
      rfl

theorem pairLoop_spec (hn : n ≤ indices.length) (hlen : indices.length ≤ MAX_INDICES) :
    ((range n).foldl (pairStep indices) (replicate MAX_INDICES false, 0)).1.length = MAX_INDICES ∧
      ((range n).foldl (pairStep indices) (replicate MAX_INDICES false, 0)).2 + countChecked (unpaired indices
        ((range n).foldl (pairStep indices) (replicate MAX_INDICES false, 0)).1 n) = countChecked indices := by
  induction n with
  | zero =>
    have hall : unpaired indices (replicate MAX_INDICES false) 0 = indices := by
      rw [unpaired, filter_eq_self.mpr fun y _ => ?_]
      · apply ext_getElem
        · simp
        · simp +contextual
      · cases h : (replicate MAX_INDICES false)[y]? <;> simp_all [getElem?_replicate]
    simp [hall]
  | succ n ih =>
    obtain ⟨hlength, hcount⟩ := ih (Nat.le_of_succ_le hn)
    rw [range_succ, foldl_append, foldl_cons, foldl_nil]
    obtain ⟨hlength', hcount'⟩ := pairStep_spec hn (hlength.symm ▸ hlen)
    exact ⟨hlength'.trans hlength, hcount'.trans hcount⟩

theorem isProbablyDuplicateMarks_eq (hlen : indices.length ≤ MAX_INDICES) :
    isProbablyDuplicateMarks MAX_INDICES indices = some (isProbablyDuplicate indices) := by
  have h := (pairLoop_spec le_rfl hlen).2
  rw [unpaired, Nat.sub_self] at h
  rw [isProbablyDuplicateMarks, if_pos hlen, isProbablyDuplicate, ← h]
  simp [countChecked]

/-- The filter drops a list of truncated indices exactly when every value occurs in it an even
number of times. -/
theorem duplicate_filter_exact {MAX_INDICES : Nat} {indices : Bytes} (hlen : indices.length ≤ MAX_INDICES) :
    ∃ r, isProbablyDuplicateMarks MAX_INDICES indices = some r ∧
      (r = true ↔ ∀ v, Even (indices.count v)) := by
  refine ⟨_, isProbablyDuplicateMarks_eq hlen, ?_⟩
  rw [isProbablyDuplicate_iff, pairedUp_iff]
  simp only [even_iff_two_dvd]

theorem duplicate_filter_exact_four : ∃ r, isProbablyDuplicateMarks 4 [7, 3, 3, 7] = some r ∧
    (r = true ↔ ∀ v, Even (([7, 3, 3, 7] : Bytes).count v)) :=
  @duplicate_filter_exact 4 [7, 3, 3, 7] (by decide)

end

variable {p : Params} {H : HashFunction p}

def truncated (p : Params) (t : LeafTree Nat) : Bytes :=
  t.fold (fun i => [truncateIndex i (p.collisionBitLength + 1)]) mergedIndices

def truncatedRow (H : HashFunction p) (t : LeafTree Nat) : Row :=
  row p t.height (hashSum H t) (truncated p t)

def LooseSiblings (H : HashFunction p) (a b : LeafTree Nat) : Prop :=
  chunk p a.height (hashSum H a) = chunk p a.height (hashSum H b) ∧ a.leaves < b.leaves ∧
    ¬((∀ j, a.height < j → j ≤ p.K → chunk p j (hashSum H a) = chunk p j (hashSum H b)) ∧
      PairedUp (truncated p (.node a b)))

section

variable {r : Nat} {a b t : LeafTree Nat}

theorem truncatedRow_eq (ht : t.Perfect r) :
    truncatedRow H t = row p r (hashSum H t) (truncated p t) := by
  rw [truncatedRow, ht.height]

theorem truncated_length (ht : t.Perfect r) : (truncated p t).length = lenIndicesAt 1 r := by
  induction r generalizing t with
  | zero =>
    cases t with
    | leaf i => rfl
    | node a b => exact ht.elim
  | succ r ih =>
    cases t with
    | leaf i => exact ht.elim
    | node a b =>
      rw [← lenIndicesAt_succ]
      exact mergedIndices_length (ih ht.1) (ih ht.2)

theorem mergeRows_truncatedRow (hr : r ≤ p.K) (ha : a.Perfect r) (hb : b.Perfect r) :
    mergeRows (truncatedRow H a) (truncatedRow H b) (hashLenAt p r) (lenIndicesAt 1 r)
      p.collisionByteLength = truncatedRow H (.node a b) := by
  have hnode : (LeafTree.node a b).Perfect (r + 1) := ⟨ha, hb⟩
  rw [truncatedRow_eq ha, truncatedRow_eq hb,
    mergeRows_row hr (truncated_length ha) (truncated_length hb), truncatedRow_eq hnode]
  rfl

theorem truncatedJoin_comm (hashLen lenIndices : Nat) (a b : Row) :
    truncatedJoin p hashLen lenIndices a b = truncatedJoin p hashLen lenIndices b a := by
  rw [truncatedJoin, truncatedJoin, mergeRows_comm]

theorem partialJoin_comm (hashLen lenIndices : Nat) (a b : Row) :
    partialJoin hashLen lenIndices a b = partialJoin hashLen lenIndices b a := by
  rw [partialJoin, partialJoin, mergeRows_comm]

theorem truncatedJoin_row (hr : r ≤ p.K) (ha : a.Perfect r) (hb : b.Perfect r) :
    truncatedJoin p (hashLenAt p r) (lenIndicesAt 1 r) (truncatedRow H a) (truncatedRow H b) =
        some c ↔
      ¬((∀ j, r < j → j ≤ p.K → chunk p j (hashSum H a) = chunk p j (hashSum H b)) ∧
        PairedUp (truncated p (.node a b))) ∧ truncatedRow H (.node a b) = c := by
  have hnode : (LeafTree.node a b).Perfect (r + 1) := ⟨ha, hb⟩
  have hzero : isZero (truncatedRow H (.node a b)) (hashLenAt p (r + 1)) = true ↔
      ∀ j, r < j → j ≤ p.K → chunk p j (hashSum H a) = chunk p j (hashSum H b) := by
    rw [truncatedRow_eq hnode, isZero_row]
    exact forall_congr' fun j => imp_congr_right fun _ => imp_congr_right fun _ =>
      chunk_xor_eq_zero
  have hindices : rowIndices (truncatedRow H (.node a b)) (hashLenAt p (r + 1))
      (2 * lenIndicesAt 1 r) = truncated p (.node a b) := by
    rw [lenIndicesAt_succ, truncatedRow_eq hnode, rowIndices_row (truncated_length hnode)]
  simp only [truncatedJoin]
  rw [mergeRows_truncatedRow hr ha hb, hashLenAt_succ hr, hindices, ← hzero,
    ← isProbablyDuplicate_iff, ← Bool.and_eq_true]
  split
  · next h => simp [h]
  · next h => simp [h]

end

def truncatedScheme (H : HashFunction p) : Scheme p where
  row := truncatedRow H
  indexLen := 1
  rowJoin := truncatedJoin p
  Siblings := LooseSiblings H
  siblings_lt h := h.2.1
  rowJoin_comm := truncatedJoin_comm
  rowJoin_row {r a b} hr ha hb _ _ hlt c := by
    have hcoll : hasCollision (truncatedRow H a) (truncatedRow H b) p.collisionByteLength = true ↔
        chunk p r (hashSum H a) = chunk p r (hashSum H b) := by
      rw [truncatedRow_eq ha, truncatedRow_eq hb, hasCollision_row hr]
    rw [hcoll, truncatedJoin_row hr ha hb, LooseSiblings, ha.height, and_iff_right hlt, and_assoc]

/-- The truncated indices of two trees of the first phase that agree in all bits left and are not
filtered. -/
def PartialSolution (H : HashFunction p) (soln : Bytes) : Prop :=
  ∃ a b, (truncatedScheme H).Level (p.K - 1) a ∧ (truncatedScheme H).Level (p.K - 1) b ∧
    a.leaves < b.leaves ∧
    (∀ j, p.K - 1 ≤ j → j ≤ p.K → chunk p j (hashSum H a) = chunk p j (hashSum H b)) ∧
    ¬PairedUp (truncated p (.node a b)) ∧ truncated p (.node a b) = soln

theorem partialJoin_row (ha : a.Perfect r) (hb : b.Perfect r) :
    partialJoin (hashLenAt p r) (lenIndicesAt 1 r) (truncatedRow H a) (truncatedRow H b) =
        some soln ↔
      ¬PairedUp (truncated p (.node a b)) ∧ truncated p (.node a b) = soln := by
  have hindices : rowIndices (mergeRows (truncatedRow H a) (truncatedRow H b) (hashLenAt p r)
      (lenIndicesAt 1 r) 0) (hashLenAt p r) (2 * lenIndicesAt 1 r) = truncated p (.node a b) := by
    rw [truncatedRow_eq ha, truncatedRow_eq hb,
      mergeRows_untrimmed (truncated_length ha) (truncated_length hb),
      rowIndices_row (mergedIndices_length (truncated_length ha) (truncated_length hb))]
    rfl
  simp only [partialJoin, hindices]
  rw [← isProbablyDuplicate_iff]
  split
  · next h => simp [h]
  · next h => simp [h]

theorem truncatedList_holds (H : HashFunction p) :
    (truncatedScheme H).Holds 0 (generateList p H (fun hashIn i => truncatedStepRow hashIn
      p.collisionBitLength i (p.collisionBitLength + 1)) (initSize p) 0 [])
      ((range (initSize p)).map LeafTree.leaf) := by
  refine (truncatedScheme H).generateList_holds H _ fun i => ?_
  rw [truncatedStepRow, expandArray_hash]
  rfl

theorem mem_partialSolns (sorter : Sorter) :
    soln ∈ partialSolns sorter p H ↔ PartialSolution H soln := by
  obtain ⟨hashLen, lenIndices, X, ts, hrounds, hholds, hlens⟩ :=
    (truncatedScheme H).rounds_holds sorter (p.K - 1) (by omega) (truncatedList_holds H)
  rw [zero_add] at hholds hlens
  have hrounds' : collisionRounds sorter p (truncatedJoin p) (p.K - 1) p.hashLength 1
      (generateList p H (fun hashIn i => truncatedStepRow hashIn p.collisionBitLength i
        (p.collisionBitLength + 1)) (initSize p) 0 []) = (hashLen, lenIndices, X) := by
    rw [← hrounds]
    rfl
  have hlen : X.length = ts.length := by rw [hholds.perm.length_eq, length_map]
  have hmany : PartialSolution H soln → 1 < X.length := by
    rintro ⟨a, b, ha, hb, hlt, -⟩
    rw [hlen]
    by_contra hless
    rw [← hholds.mem_iff] at ha hb
    match ts, ha, hb, hless with
    | [t], ha, hb, _ =>
      rw [mem_singleton.mp ha, mem_singleton.mp hb] at hlt
      exact lt_irrefl _ hlt
    | _ :: _ :: _, _, _, hless => simp at hless
  simp only [partialSolns, hrounds']
  split
  · next hmore =>
      obtain ⟨rfl, rfl⟩ := hlens (by rintro rfl; simp at hmore)
      rw [(truncatedScheme H).mem_finalRound sorter (partialJoin_comm _ _) hholds, PartialSolution]
      refine exists_congr fun a => exists_congr fun b => and_congr_right fun ha =>
        and_congr_right fun hb => and_congr_right fun _ => and_congr ?_ (partialJoin_row ha.1 hb.1)
      change hasCollision (truncatedRow H a) (truncatedRow H b) _ = true ↔ _
      rw [truncatedRow_eq ha.1, truncatedRow_eq hb.1, hasCollision_rest]
  · next hless => exact ⟨fun h => absurd h not_mem_nil, fun h => absurd (hmany h) hless⟩

end Utsuite.EquihashOptimised
