import Utsuite.EquihashCodec
import Utsuite.PerfectTree

namespace Utsuite.EquihashTree

open ByteWords BitPack Equihash EquihashCodec PerfectTree List

variable {p : Params} (H : HashFunction p)

def hashString (i : Nat) : BitVec p.N :=
  BitVec.ofNat p.N (beValue (hashPart p (H (i / p.indicesPerHashOutput)).val
    (i % p.indicesPerHashOutput)))

def hashSum (t : LeafTree Nat) : BitVec p.N := t.fold (hashString H) (· ^^^ ·)

def chunk (p : Params) (j : Nat) (x : BitVec p.N) : Nat :=
  (x.toNat >>> (p.N - (j + 1) * p.collisionBitLength)) % 2 ^ p.collisionBitLength

def chunkBytes (p : Params) (r : Nat) (x : BitVec p.N) : Bytes :=
  (range' r (p.K + 1 - r)).flatMap fun j => beBytes p.collisionByteLength (chunk p j x)

def row (p : Params) (r : Nat) (x : BitVec p.N) (indices : Bytes) : Row :=
  chunkBytes p r x ++ indices

def indexBytes (t : LeafTree Nat) : Bytes := t.leaves.flatMap ehIndexToArray

def treeRow (t : LeafTree Nat) : Row := row p t.height (hashSum H t) (indexBytes t)

def hashLenAt (p : Params) (r : Nat) : Nat := (p.K + 1 - r) * p.collisionByteLength

def lenIndicesAt (w r : Nat) : Nat := w * 2 ^ r

section

variable {H}

theorem chunk_lt (j : Nat) (x : BitVec p.N) : chunk p j x < 256 ^ p.collisionByteLength :=
  lt_of_lt_of_le (Nat.mod_lt _ (Nat.two_pow_pos _)) (two_pow_le_bytes _)

theorem chunk_xor (j : Nat) (x y : BitVec p.N) :
    chunk p j (x ^^^ y) = chunk p j x ^^^ chunk p j y := by
  rw [chunk, BitVec.toNat_xor, Nat.shiftRight_xor_distrib, Nat.xor_mod_two_pow, chunk, chunk]

theorem chunk_xor_eq_zero : chunk p j (x ^^^ y) = 0 ↔ chunk p j x = chunk p j y := by
  rw [chunk_xor, Nat.xor_eq_zero_iff]

theorem chunkBytes_length (r : Nat) (x : BitVec p.N) :
    (chunkBytes p r x).length = hashLenAt p r := by
  rw [chunkBytes, length_flatMap, hashLenAt]
  simp

theorem chunkBytes_succ (hr : r ≤ p.K) (x : BitVec p.N) :
    chunkBytes p r x = beBytes p.collisionByteLength (chunk p r x) ++ chunkBytes p (r + 1) x := by
  rw [chunkBytes, show p.K + 1 - r = p.K - r + 1 by omega, range'_succ, flatMap_cons,
    chunkBytes, show p.K + 1 - (r + 1) = p.K - r by omega]

theorem zipWith_flatMap {α : Type} {f g h : α → Bytes} (l : List α)
    (hlen : ∀ a, (f a).length = (g a).length)
    (hop : ∀ a, zipWith (· ^^^ ·) (f a) (g a) = h a) :
    zipWith (· ^^^ ·) (l.flatMap f) (l.flatMap g) = l.flatMap h := by
  induction l with
  | nil => rfl
  | cons a l ih =>
    rw [flatMap_cons, flatMap_cons, flatMap_cons, zipWith_append (hlen a),
      hop, ih]

theorem chunkBytes_xor (r : Nat) (x y : BitVec p.N) :
    zipWith (· ^^^ ·) (chunkBytes p r x) (chunkBytes p r y) = chunkBytes p r (x ^^^ y) := by
  apply zipWith_flatMap
  · simp
  · intro j
    rw [zipWith_xor_beBytes, chunk_xor]

theorem N_sub (hj : j ≤ p.K) :
    p.N - (j + 1) * p.collisionBitLength = p.collisionBitLength * (p.K - j) := by
  rw [N_eq, mul_comm (j + 1), ← Nat.mul_sub, show p.K + 1 - (j + 1) = p.K - j by omega]

theorem zeroPrefix_bit (hj : j ≤ p.K) (hb : b < p.collisionBitLength) (x : BitVec p.N) :
    x.getMsbD (j * p.collisionBitLength + (p.collisionBitLength - 1 - b)) =
      (chunk p j x).testBit b := by
  have hN := N_eq p
  have hsub := N_sub hj
  have hle : (j + 1) * p.collisionBitLength ≤ p.N := by
    rw [hN, mul_comm]
    exact Nat.mul_le_mul_left _ (by omega)
  have hmul : (j + 1) * p.collisionBitLength = j * p.collisionBitLength + p.collisionBitLength :=
    Nat.succ_mul _ _
  rw [chunk, Nat.testBit_mod_two_pow, Nat.testBit_shiftRight, BitVec.getMsbD, BitVec.getLsbD]
  have hlt : j * p.collisionBitLength + (p.collisionBitLength - 1 - b) < p.N := by omega
  rw [decide_eq_true hlt, decide_eq_true hb, Bool.true_and, Bool.true_and]
  congr 1
  omega

end

def ZeroPrefix {n : Nat} (m : Nat) (x : BitVec n) : Prop := ∀ i < m, x.getMsbD i = false

theorem zeroPrefix_iff (hh : h ≤ p.K + 1) (x : BitVec p.N) :
    ZeroPrefix (h * p.collisionBitLength) x ↔ ∀ j < h, chunk p j x = 0 := by
  have hc := (bitLength_bounds p).1
  constructor
  · intro hzero j hj
    apply Nat.eq_of_testBit_eq
    intro b
    rw [Nat.zero_testBit]
    by_cases hb : b < p.collisionBitLength
    · rw [← zeroPrefix_bit (by omega) hb]
      have := Nat.mul_le_mul_right p.collisionBitLength (show j + 1 ≤ h from hj)
      rw [Nat.succ_mul] at this
      exact hzero _ (by omega)
    · rw [chunk, Nat.testBit_mod_two_pow, decide_eq_false hb, Bool.false_and]
  · intro hzero i hi
    have hj : i / p.collisionBitLength < h := (Nat.div_lt_iff_lt_mul (by omega)).mpr hi
    have hmod := Nat.mod_lt i (show 0 < p.collisionBitLength by omega)
    have hsplit := Nat.div_add_mod' i p.collisionBitLength
    have hbit := zeroPrefix_bit (j := i / p.collisionBitLength)
      (b := p.collisionBitLength - 1 - i % p.collisionBitLength) (by omega) (by omega) x
    rw [show p.collisionBitLength - 1 - (p.collisionBitLength - 1 - i % p.collisionBitLength) =
      i % p.collisionBitLength by omega, hsplit, hzero _ hj, Nat.zero_testBit] at hbit
    exact hbit

theorem eq_zero_iff_chunks (x : BitVec p.N) : x = 0 ↔ ∀ j < p.K + 1, chunk p j x = 0 := by
  rw [← zeroPrefix_iff le_rfl, mul_comm, ← N_eq]
  constructor
  · rintro rfl i _
    simp
  · intro hzero
    apply BitVec.eq_of_getMsbD_eq
    intro i hi
    rw [hzero i hi]
    simp

section

variable {r L : Nat} {x y : BitVec p.N} {u v : Bytes}

theorem chunkBytes_eq_iff :
    chunkBytes p r x = chunkBytes p r y ↔ ∀ j, r ≤ j → j ≤ p.K → chunk p j x = chunk p j y := by
  constructor
  · intro h
    have hmain : ∀ n r, r + n = p.K + 1 → chunkBytes p r x = chunkBytes p r y →
        ∀ j, r ≤ j → j ≤ p.K → chunk p j x = chunk p j y := by
      intro n
      induction n with
      | zero => exact fun r hr _ j hj hj' => by omega
      | succ n ih =>
        intro r hr h j hj hj'
        have hr' : r ≤ p.K := by omega
        rw [chunkBytes_succ hr' x, chunkBytes_succ hr' y] at h
        obtain ⟨hfirst, hrest⟩ := append_inj h (by simp)
        obtain rfl | hj := Nat.eq_or_lt_of_le hj
        · exact beBytes_injective (chunk_lt r x) (chunk_lt r y) hfirst
        · exact ih (r + 1) (by omega) hrest j hj hj'
    by_cases hr : r ≤ p.K + 1
    · exact hmain (p.K + 1 - r) r (by omega) h
    · exact fun j hj hj' => by omega
  · intro h
    refine flatMap_congr fun j hj => ?_
    rw [mem_range'_1] at hj
    rw [h j hj.1 (by omega)]

theorem take_row : (row p r x u).take (hashLenAt p r) = chunkBytes p r x :=
  take_left' (chunkBytes_length r x)

theorem rowIndices_row (hu : u.length = L) : rowIndices (row p r x u) (hashLenAt p r) L = u := by
  rw [rowIndices, row, drop_left' (chunkBytes_length r x), take_of_length_le hu.le]

theorem hasCollision_row (hr : r ≤ p.K) :
    hasCollision (row p r x u) (row p r y v) p.collisionByteLength = true ↔
      chunk p r x = chunk p r y := by
  have htake : ∀ (x : BitVec p.N) (u : Bytes), (row p r x u).take p.collisionByteLength =
      beBytes p.collisionByteLength (chunk p r x) := by
    intro x u
    rw [row, chunkBytes_succ hr, append_assoc, take_left' (by simp)]
  rw [hasCollision, beq_iff_eq, htake, htake]
  exact ⟨beBytes_injective (chunk_lt r _) (chunk_lt r _), fun h => by rw [h]⟩

theorem hasCollision_rest :
    hasCollision (row p r x u) (row p r y v) (hashLenAt p r) = true ↔
      ∀ j, r ≤ j → j ≤ p.K → chunk p j x = chunk p j y := by
  rw [hasCollision, beq_iff_eq, take_row, take_row, chunkBytes_eq_iff]

theorem isZero_row :
    isZero (row p r x u) (hashLenAt p r) = true ↔ ∀ j, r ≤ j → j ≤ p.K → chunk p j x = 0 := by
  rw [isZero, take_row, chunkBytes, all_flatMap]
  simp only [all_eq_true (l := range' r _), beBytes_all_zero (chunk_lt _ _),
    mem_range'_1]
  constructor
  · exact fun h j hj hj' => h j ⟨hj, by omega⟩
  · exact fun h j hj => h j hj.1 (by omega)

def mergedIndices (u v : Bytes) : Bytes := if bytesLt u v then u ++ v else v ++ u

theorem mergeRows_row (hr : r ≤ p.K) (hu : u.length = L) (hv : v.length = L) :
    mergeRows (row p r x u) (row p r y v) (hashLenAt p r) L p.collisionByteLength =
      row p (r + 1) (x ^^^ y) (mergedIndices u v) := by
  rw [mergeRows, indicesBefore, rowIndices_row hu, rowIndices_row hv, take_row, take_row,
    chunkBytes_succ hr, chunkBytes_succ hr, drop_left' (by simp), drop_left' (by simp),
    chunkBytes_xor, row, mergedIndices]

theorem mergeRows_untrimmed (hu : u.length = L) (hv : v.length = L) :
    mergeRows (row p r x u) (row p r y v) (hashLenAt p r) L 0 =
      row p r (x ^^^ y) (mergedIndices u v) := by
  rw [mergeRows, indicesBefore, rowIndices_row hu, rowIndices_row hv, take_row, take_row,
    drop_zero, drop_zero, chunkBytes_xor, row, mergedIndices]

theorem mergedIndices_length (hu : u.length = L) (hv : v.length = L) :
    (mergedIndices u v).length = 2 * L := by
  rw [mergedIndices]
  split <;> rw [length_append, hu, hv, Nat.two_mul]

theorem hashLenAt_succ (hr : r ≤ p.K) :
    hashLenAt p r - p.collisionByteLength = hashLenAt p (r + 1) := by
  rw [hashLenAt, hashLenAt, show p.K + 1 - r = p.K + 1 - (r + 1) + 1 by omega, Nat.succ_mul,
    Nat.add_sub_cancel]

theorem lenIndicesAt_succ (w : Nat) : 2 * lenIndicesAt w r = lenIndicesAt w (r + 1) := by
  rw [lenIndicesAt, lenIndicesAt, pow_succ]
  ring

end

section

variable {H}

theorem N_pos : 0 < p.N := by
  have hc := (bitLength_bounds p).1
  rw [N_eq]
  exact Nat.mul_pos (by omega) (Nat.succ_pos _)

theorem indicesPerHashOutput_pos : 0 < p.indicesPerHashOutput := Nat.div_pos p.N_le N_pos

theorem hashPart_length (tmpHash : {hash : Bytes // hash.length = p.hashOutput})
    (hi : i < p.indicesPerHashOutput) : (hashPart p tmpHash.val i).length = p.N / 8 := by
  obtain ⟨n, hn⟩ := p.eight_dvd
  have hmul : ∀ k : Nat, k * p.N / 8 = k * n := by
    intro k
    rw [hn, mul_left_comm, Nat.mul_div_cancel_left _ (by decide)]
  have hle : (i + 1) * n ≤ p.indicesPerHashOutput * n := Nat.mul_le_mul_right n hi
  rw [Nat.succ_mul] at hle
  rw [hashPart, length_take, length_drop, tmpHash.property, Params.hashOutput, hmul, hmul,
    hn, Nat.mul_div_cancel_left _ (by decide)]
  omega

theorem expandArray_hash (H : HashFunction p) (i : Nat) :
    expandArray (hashPart p (H (i / p.indicesPerHashOutput)).val (i % p.indicesPerHashOutput))
      p.collisionBitLength 0 = chunkBytes p 0 (hashString H i) := by
  have hb := bitLength_bounds p
  have hlen := hashPart_length (H (i / p.indicesPerHashOutput))
    (Nat.mod_lt i indicesPerHashOutput_pos)
  have hbits : 8 * (p.N / 8) = p.N := Nat.mul_div_cancel' p.eight_dvd
  have hlt := beValue_lt (hashPart p (H (i / p.indicesPerHashOutput)).val
    (i % p.indicesPerHashOutput))
  rw [hlen, show 256 = 2 ^ 8 from rfl, ← pow_mul, hbits] at hlt
  rw [expandArray_eq hb.1 (by omega) (by rw [hlen, hbits, N_eq]), digits_eq_map, chunkBytes,
    Nat.sub_zero, ← range_eq_range', flatMap_map]
  apply flatMap_congr
  intro j hj
  have hj' := mem_range.mp hj
  rw [zero_add, ← Params.collisionByteLength, chunk, hashString, BitVec.toNat_ofNat,
    Nat.mod_eq_of_lt hlt, N_sub (by omega), Nat.shiftRight_eq_div_pow, pow_mul,
    Nat.add_sub_cancel]

theorem indexRow_eq (i : Nat) : indexRow p H i = treeRow H (.leaf i) := by
  rw [indexRow, fullStepRow, expandArray_hash, treeRow, row, indexBytes, LeafTree.leaves,
    flatMap_singleton]
  rfl

def InRange (p : Params) (t : LeafTree Nat) : Prop :=
  ∀ i ∈ t.leaves, i < 2 ^ (p.collisionBitLength + 1)

theorem InRange.lt_word (h : InRange p t) : ∀ i ∈ t.leaves, i < 256 ^ 4 := by
  have hb := bitLength_bounds p
  intro i hi
  calc i < 2 ^ (p.collisionBitLength + 1) := h i hi
    _ ≤ 2 ^ 25 := Nat.pow_le_pow_right (by decide) (by omega)
    _ ≤ 256 ^ 4 := by decide

theorem inRange_node : InRange p (.node l r) ↔ InRange p l ∧ InRange p r := by
  simp only [InRange, LeafTree.leaves, mem_append]
  constructor
  · exact fun h => ⟨fun i hi => h i (.inl hi), fun i hi => h i (.inr hi)⟩
  · rintro ⟨hl, hr⟩ i (hi | hi)
    · exact hl i hi
    · exact hr i hi

variable {r : Nat} {a b t : LeafTree Nat}

theorem treeRow_eq (ht : t.Perfect r) : treeRow H t = row p r (hashSum H t) (indexBytes t) := by
  rw [treeRow, ht.height]

theorem indexBytes_length (ht : t.Perfect r) : (indexBytes t).length = lenIndicesAt 4 r := by
  rw [indexBytes, length_flatMap, lenIndicesAt, ← ht.length_leaves]
  simp [ehIndexToArray, mul_comm]

theorem rowIndices_treeRow (ht : t.Perfect r) :
    rowIndices (treeRow H t) (hashLenAt p r) (lenIndicesAt 4 r) = indexBytes t := by
  rw [treeRow_eq ht, rowIndices_row (indexBytes_length ht)]

theorem hasCollision_treeRow (hr : r ≤ p.K) (ha : a.Perfect r) (hb : b.Perfect r) :
    hasCollision (treeRow H a) (treeRow H b) p.collisionByteLength = true ↔
      chunk p r (hashSum H a) = chunk p r (hashSum H b) := by
  rw [treeRow_eq ha, treeRow_eq hb, hasCollision_row hr]

theorem indexBytes_lt_iff (ha : a.Perfect r) (hb : b.Perfect r) (hra : InRange p a)
    (hrb : InRange p b) : bytesLt (indexBytes a) (indexBytes b) = true ↔ a.leaves < b.leaves := by
  rw [bytesLt, decide_eq_true_eq]
  exact flatMap_beBytes_lt_iff (by rw [ha.length_leaves, hb.length_leaves]) hra.lt_word hrb.lt_word

theorem indicesBefore_treeRow (ha : a.Perfect r) (hb : b.Perfect r) (hra : InRange p a)
    (hrb : InRange p b) :
    indicesBefore (treeRow H a) (treeRow H b) (hashLenAt p r) (lenIndicesAt 4 r) = true ↔
      a.leaves < b.leaves := by
  rw [indicesBefore, rowIndices_treeRow ha, rowIndices_treeRow hb, indexBytes_lt_iff ha hb hra hrb]

theorem distinctIndices_treeRow (ha : a.Perfect r) (hb : b.Perfect r) (hra : InRange p a)
    (hrb : InRange p b) :
    distinctIndices (treeRow H a) (treeRow H b) (hashLenAt p r) (lenIndicesAt 4 r) = true ↔
      List.Disjoint a.leaves b.leaves := by
  rw [distinctIndices, rowIndices_treeRow ha, rowIndices_treeRow hb, indexBytes, indexBytes,
    pieces_flatMap (by decide) _ (by simp [ehIndexToArray]),
    pieces_flatMap (by decide) _ (by simp [ehIndexToArray])]
  simp only [all_eq_true, mem_map, bne_iff_ne, forall_exists_index, and_imp,
    forall_apply_eq_imp_iff₂]
  constructor
  · intro h i hi hi'
    exact h i hi i hi' rfl
  · intro h i hi j hj heq
    have := beBytes_injective (hra.lt_word i hi) (hrb.lt_word j hj) heq
    exact h hi (this ▸ hj)

theorem isZero_treeRow (ht : t.Perfect r) :
    isZero (treeRow H t) (hashLenAt p r) = true ↔
      ∀ j, r ≤ j → j ≤ p.K → chunk p j (hashSum H t) = 0 := by
  rw [treeRow_eq ht, isZero_row]

theorem mergedIndices_indexBytes (ha : a.Perfect r) (hb : b.Perfect r) (hra : InRange p a)
    (hrb : InRange p b) (hlt : a.leaves < b.leaves) :
    mergedIndices (indexBytes a) (indexBytes b) = indexBytes (.node a b) := by
  rw [mergedIndices, if_pos ((indexBytes_lt_iff ha hb hra hrb).mpr hlt)]
  exact flatMap_append.symm

theorem mergeRows_treeRow (hr : r ≤ p.K) (ha : a.Perfect r) (hb : b.Perfect r)
    (hra : InRange p a) (hrb : InRange p b) (hlt : a.leaves < b.leaves) :
    mergeRows (treeRow H a) (treeRow H b) (hashLenAt p r) (lenIndicesAt 4 r)
      p.collisionByteLength = treeRow H (.node a b) := by
  have hnode : (LeafTree.node a b).Perfect (r + 1) := ⟨ha, hb⟩
  rw [treeRow_eq ha, treeRow_eq hb, mergeRows_row hr (indexBytes_length ha) (indexBytes_length hb),
    mergedIndices_indexBytes ha hb hra hrb hlt, treeRow_eq hnode]
  rfl

theorem getIndices_row (ht : t.Perfect r) :
    getIndices (row p s x (indexBytes t)) (hashLenAt p s) (lenIndicesAt 4 r) p.collisionBitLength =
      getMinimalFromIndices t.leaves p.collisionBitLength := by
  rw [getIndices, rowIndices_row (indexBytes_length ht), getMinimalFromIndices, ht.length_leaves,
    lenIndicesAt, mul_comm 4, indexBytes]

end

/-- The assertions of a run that makes rows of width `W`, with `w` bytes for each index, and merges
them in the rounds below `n`. They are about lengths only, so they are the same for all rows of a
round. -/
structure LengthAsserts (p : Params) (w W n : Nat) : Prop where
  hash_le : p.hashLength ≤ W
  expand : ExpandAsserts (p.N / 8) p.hashLength p.collisionBitLength 0
  merge : ∀ r < n, MergeAsserts (hashLenAt p r) (lenIndicesAt w r) p.collisionByteLength W W

section

theorem byteLength_bounds (p : Params) : 1 ≤ p.collisionByteLength ∧ p.collisionByteLength ≤ 3 := by
  have hb := bitLength_bounds p
  rw [Params.collisionByteLength]
  omega

theorem lengthAsserts (hn : n ≤ p.K) (h : ∀ r ≤ n, hashLenAt p r + lenIndicesAt w r ≤ W) :
    LengthAsserts p w W n where
  hash_le := (Nat.le_add_right _ _).trans (h 0 (Nat.zero_le n))
  expand := expandAsserts_hash p
  merge r hr := by
    refine ⟨h r hr.le, ?_⟩
    rw [hashLenAt_succ (by omega), lenIndicesAt_succ]
    exact h (r + 1) hr

theorem mul_add_two_pow_le (d : Nat) (h : c ≤ m * 2 ^ r) : d * c + m * 2 ^ r ≤ m * 2 ^ (r + d) := by
  have hpow : d + 1 ≤ 2 ^ d := Nat.lt_two_pow_self
  calc d * c + m * 2 ^ r ≤ d * (m * 2 ^ r) + m * 2 ^ r := by gcongr
    _ = m * 2 ^ r * (d + 1) := by ring
    _ ≤ m * 2 ^ r * 2 ^ d := Nat.mul_le_mul_left _ hpow
    _ = m * 2 ^ (r + d) := by rw [pow_add, mul_assoc]

theorem hashLenAt_eq (hr : r ≤ p.K - 1) :
    hashLenAt p r = 2 * p.collisionByteLength + (p.K - 1 - r) * p.collisionByteLength := by
  have hK := p.K_pos
  rw [hashLenAt, ← Nat.add_mul]
  congr 1
  omega

theorem full_fits (hr : r ≤ p.K - 1) : hashLenAt p r + lenIndicesAt 4 r ≤ p.fullWidth := by
  have hpow := Nat.two_pow_pos r
  have hbytes := (byteLength_bounds p).2
  have hle := mul_add_two_pow_le (p.K - 1 - r)
    (show p.collisionByteLength ≤ 4 * 2 ^ r by omega)
  rw [Nat.add_sub_cancel' hr] at hle
  rw [hashLenAt_eq hr, lenIndicesAt, Params.fullWidth]
  omega

theorem finalFull_fits (hr : r ≤ p.K) : hashLenAt p r + lenIndicesAt 4 r ≤ p.finalFullWidth := by
  have hK := p.K_pos
  rcases Nat.lt_or_eq_of_le hr with hlt | rfl
  · have hle := full_fits (p := p) (r := r) (by omega)
    have hpow := Nat.pow_le_pow_right (show 0 < 2 by decide) (Nat.sub_le p.K 1)
    rw [Params.fullWidth] at hle
    rw [Params.finalFullWidth]
    omega
  · rw [hashLenAt, Nat.add_sub_cancel_left, one_mul, lenIndicesAt, Params.finalFullWidth]
    omega

theorem truncated_fits (hr : r ≤ p.K - 1) :
    hashLenAt p r + lenIndicesAt 1 r ≤ p.truncatedWidth := by
  have hK := p.K_pos
  have hbytes := byteLength_bounds p
  rw [Params.truncatedWidth, le_max_iff, lenIndicesAt]
  obtain rfl | rfl | hlarge : r = 0 ∨ r = 1 ∨ 2 ≤ r := by omega
  · exact .inl le_rfl
  · left
    rw [hashLenAt, Params.hashLength, Nat.add_sub_cancel, Nat.succ_mul p.K]
    omega
  · right
    have hpow : 2 ^ 2 ≤ 2 ^ r := Nat.pow_le_pow_right (by decide) hlarge
    have hle := mul_add_two_pow_le (p.K - 1 - r)
      (show p.collisionByteLength ≤ 1 * 2 ^ r by omega)
    rw [Nat.add_sub_cancel' hr] at hle
    rw [hashLenAt_eq hr]
    omega

theorem lastMerge_asserts (h : hashLenAt p (p.K - 1) + lenIndicesAt w (p.K - 1) ≤ W)
    (h' : 2 * p.collisionByteLength + w * 2 ^ p.K ≤ W') :
    MergeAsserts (hashLenAt p (p.K - 1)) (lenIndicesAt w (p.K - 1)) 0 W W' := by
  refine ⟨h, ?_⟩
  rw [Nat.sub_zero, hashLenAt_eq le_rfl, Nat.sub_self, zero_mul, lenIndicesAt_succ,
    Nat.sub_add_cancel p.K_pos, lenIndicesAt]
  exact h'

end

end Utsuite.EquihashTree
