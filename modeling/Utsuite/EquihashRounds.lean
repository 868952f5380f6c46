import Utsuite.EquihashTree
import Utsuite.PairTable

namespace Utsuite.EquihashRounds

open ByteWords BitPack Equihash EquihashTree PairTable PerfectTree List

def initSize (p : Params) : Nat := 2 ^ (p.collisionBitLength + 1)

def generateList (p : Params) (generateHash : HashFunction p) (makeRow : Bytes → Nat → Row) :
    Nat → Nat → List Row → List Row
  | 0, _, X => X
  | rounds + 1, g, X =>
    if X.length < initSize p then
      generateList p generateHash makeRow rounds (g + 1)
        (X ++ ((range p.indicesPerHashOutput).take (initSize p - X.length)).map fun i =>
          makeRow (hashPart p (generateHash g).val i) (g * p.indicesPerHashOutput + i))
    else X

def compareSR (len : Nat) (a b : Row) : Bool := bytesLt (a.take len) (b.take len)

/-- The rounds of either solver. What step 2c makes of a pair of rows is a parameter. -/
def collisionRounds (sorter : Sorter) (p : Params) (rowJoin : Nat → Nat → Row → Row → Option Row) :
    Nat → Nat → Nat → List Row → Nat × Nat × List Row
  | 0, hashLen, lenIndices, X => (hashLen, lenIndices, X)
  | rounds + 1, hashLen, lenIndices, X =>
    if X.length > 0 then
      collisionRounds sorter p rowJoin rounds (hashLen - p.collisionByteLength) (2 * lenIndices)
        (collide (fun a b => hasCollision a b p.collisionByteLength)
          (rowJoin hashLen lenIndices) (sorter.sort (compareSR p.collisionByteLength) X))
    else (hashLen, lenIndices, X)

def finalRound (sorter : Sorter) (final : Row → Row → Option Bytes) (hashLen : Nat)
    (X : List Row) : List Bytes :=
  (groups (fun a b => hasCollision a b hashLen) (sorter.sort (compareSR hashLen) X)).flatMap
    (joinPairs final)

def offerAll (validBlock : Bytes → Bool) : List Bytes → List Bytes × Bool
  | [] => ([], false)
  | soln :: solns =>
    if validBlock soln then ([soln], true)
    else
      let rest := offerAll validBlock solns
      (soln :: rest.1, rest.2)

structure Outcome where
  offered : List Bytes
  returned : Option Bool

variable {p : Params} {H : HashFunction p}

theorem generateList_eq (rounds g : Nat)
    (hX : X = (range (min (g * p.indicesPerHashOutput) (initSize p))).map fun k =>
      makeRow (hashPart p (H (k / p.indicesPerHashOutput)).val (k % p.indicesPerHashOutput)) k)
    (hrounds : initSize p ≤ (g + rounds) * p.indicesPerHashOutput) :
    generateList p H makeRow rounds g X = (range (initSize p)).map fun k =>
      makeRow (hashPart p (H (k / p.indicesPerHashOutput)).val (k % p.indicesPerHashOutput)) k := by
  have hpos := indicesPerHashOutput_pos (p := p)
  induction rounds generalizing g X with
  | zero =>
    rw [add_zero] at hrounds
    rw [generateList, hX, min_eq_right hrounds]
  | succ rounds ih =>
    have hlen : X.length = min (g * p.indicesPerHashOutput) (initSize p) := by
      rw [hX, length_map, length_range]
    rw [generateList]
    split
    · next hless =>
        have hg : g * p.indicesPerHashOutput < initSize p := by omega
        apply ih
        · rw [hlen, min_eq_left hg.le, hX, min_eq_left hg.le, take_range,
            show min ((g + 1) * p.indicesPerHashOutput) (initSize p) =
              g * p.indicesPerHashOutput +
                min (initSize p - g * p.indicesPerHashOutput) p.indicesPerHashOutput by
              rw [Nat.succ_mul]; omega, range_add, map_append, map_map]
          congr 1
          apply map_congr_left
          intro i hi
          have hi' := mem_range.mp hi
          have hdiv : (g * p.indicesPerHashOutput + i) / p.indicesPerHashOutput = g := by
            rw [mul_comm, Nat.mul_add_div hpos, Nat.div_eq_of_lt (by omega), add_zero]
          have hmod : (g * p.indicesPerHashOutput + i) % p.indicesPerHashOutput = i := by
            rw [Nat.mul_add_mod_self_right, Nat.mod_eq_of_lt (by omega)]
          rw [Function.comp_apply, hdiv, hmod]
        · rwa [show g + 1 + rounds = g + (rounds + 1) by omega]
    · next hfull =>
        rw [hX, min_eq_right (by omega)]

theorem mergeRows_comm (a b : Row) (len lenIndices trim : Nat) :
    mergeRows a b len lenIndices trim = mergeRows b a len lenIndices trim := by
  have hxor : (fun x y : UInt8 => x ^^^ y) = fun x y => y ^^^ x := by
    funext x y
    exact UInt8.xor_comm x y
  rw [mergeRows, mergeRows]
  congr 1
  · rw [zipWith_comm, ← hxor]
  · simp only [indicesBefore, bytesLt, decide_eq_true_eq]
    obtain hlt | heq | hgt := lt_trichotomy ((rowIndices a len lenIndices).map UInt8.toNat)
      ((rowIndices b len lenIndices).map UInt8.toNat)
    · rw [if_pos hlt, if_neg (not_lt_of_gt hlt)]
    · rw [map_toNat_injective heq]
    · rw [if_neg (not_lt_of_gt hgt), if_pos hgt]

theorem distinctIndices_comm (a b : Row) (len lenIndices : Nat) :
    distinctIndices a b len lenIndices = distinctIndices b a len lenIndices := by
  rw [Bool.eq_iff_iff]
  simp only [distinctIndices, all_eq_true, bne_iff_ne]
  exact ⟨fun h x hx y hy => (h y hy x hx).symm, fun h x hx y hy => (h y hy x hx).symm⟩

def sortKey (len : Nat) (a : Row) : List Nat := (a.take len).map UInt8.toNat

theorem hasCollision_iff_key (len : Nat) (a b : Row) :
    hasCollision a b len = true ↔ sortKey len a = sortKey len b := by
  rw [hasCollision, beq_iff_eq, sortKey, sortKey]
  exact ⟨fun h => by rw [h], map_toNat_injective⟩

theorem compareSR_iff_key (len : Nat) (a b : Row) :
    compareSR len a b = true ↔ sortKey len a < sortKey len b := by
  rw [compareSR, bytesLt, decide_eq_true_eq, sortKey, sortKey]

/-- What the two solvers differ in: the row of a tree, what a round makes of two rows, and the
siblings that it joins. -/
structure Scheme (p : Params) where
  row : LeafTree Nat → Row
  indexLen : Nat
  rowJoin : Nat → Nat → Row → Row → Option Row
  Siblings : LeafTree Nat → LeafTree Nat → Prop
  siblings_lt : ∀ {a b}, Siblings a b → a.leaves < b.leaves
  rowJoin_comm : ∀ hashLen lenIndices a b,
    rowJoin hashLen lenIndices a b = rowJoin hashLen lenIndices b a
  rowJoin_row : ∀ {r : Nat} {a b : LeafTree Nat}, r ≤ p.K → a.Perfect r → b.Perfect r → InRange p a →
    InRange p b → a.leaves < b.leaves → ∀ c,
      hasCollision (row a) (row b) p.collisionByteLength = true ∧
        rowJoin (hashLenAt p r) (lenIndicesAt indexLen r) (row a) (row b) = some c ↔
      Siblings a b ∧ row (.node a b) = c

namespace Scheme

variable (S : Scheme p) {r : Nat} {a b t : LeafTree Nat}

def Level (r : Nat) (t : LeafTree Nat) : Prop :=
  t.Perfect r ∧ InRange p t ∧ t.AllNodes S.Siblings

structure Holds (r : Nat) (X : List Row) (ts : List (LeafTree Nat)) : Prop where
  perm : X.Perm (ts.map S.row)
  nodup : ts.Nodup
  mem_iff : ∀ t, t ∈ ts ↔ S.Level r t

def Few (r : Nat) : Prop :=
  ∀ ts : List (LeafTree Nat), ts.Nodup → (∀ t ∈ ts, S.Level r t) → ts.length < 2 ^ 31

theorem Holds.length_lt_iff (h : S.Holds r X ts) : X.length < 2 ^ 31 ↔ S.Few r := by
  have hlen : X.length = ts.length := by rw [h.perm.length_eq, length_map]
  rw [hlen]
  constructor
  · intro hlt ts' hnodup hmem
    have hsub : ts' ⊆ ts := fun t ht => (h.mem_iff t).mpr (hmem t ht)
    exact (subperm_of_subset hnodup hsub).length_le.trans_lt hlt
  · exact fun hfew => hfew ts h.nodup fun t => (h.mem_iff t).mp

open Classical in
noncomputable def join (a b : LeafTree Nat) : Option (LeafTree Nat) :=
  if S.Siblings a b then some (.node a b)
  else if S.Siblings b a then some (.node b a)
  else none

theorem join_eq_some :
    S.join a b = some t ↔ S.Siblings a b ∧ .node a b = t ∨ S.Siblings b a ∧ .node b a = t := by
  rw [join]
  split
  · next h =>
      have hnot : ¬S.Siblings b a := fun h' => lt_asymm (S.siblings_lt h) (S.siblings_lt h')
      simp [h, hnot]
  · next h => simp [h]

theorem join_comm (a b : LeafTree Nat) : S.join a b = S.join b a := by
  apply Option.ext
  intro t
  rw [join_eq_some, join_eq_some, or_comm]

theorem level_succ_iff :
    S.Level (r + 1) t ↔
      ∃ a b, S.Level r a ∧ S.Level r b ∧ S.Siblings a b ∧ .node a b = t := by
  constructor
  · rintro ⟨hperfect, hrange, hnodes⟩
    cases t with
    | leaf i => exact hperfect.elim
    | node a b =>
      obtain ⟨hra, hrb⟩ := inRange_node.mp hrange
      exact ⟨a, b, ⟨hperfect.1, hra, hnodes.1⟩, ⟨hperfect.2, hrb, hnodes.2.1⟩, hnodes.2.2, rfl⟩
  · rintro ⟨a, b, ha, hb, hsiblings, rfl⟩
    exact ⟨⟨ha.1, hb.1⟩, inRange_node.mpr ⟨ha.2.1, hb.2.1⟩, ha.2.2, hb.2.2, hsiblings⟩

theorem level_of_higher (h : S.Level (r + n) t) : ∃ s, S.Level r s := by
  induction n generalizing t with
  | zero => exact ⟨t, h⟩
  | succ n ih =>
    obtain ⟨a, b, ha, -⟩ := S.level_succ_iff.mp h
    exact ih ha

theorem Level.leaves_lt_or_gt {S : Scheme p} (ha : S.Level r a) (hb : S.Level r b) (hne : a ≠ b) :
    a.leaves < b.leaves ∨ b.leaves < a.leaves :=
  lt_or_gt_of_ne fun heq => hne (ha.1.leaves_injective hb.1 heq)

theorem generateList_holds (H : HashFunction p) (makeRow : Bytes → Nat → Row)
    (hrow : ∀ i, makeRow (hashPart p (H (i / p.indicesPerHashOutput)).val
      (i % p.indicesPerHashOutput)) i = S.row (.leaf i)) :
    S.Holds 0 (generateList p H makeRow (initSize p) 0 [])
      ((range (initSize p)).map LeafTree.leaf) := by
  have hpos := indicesPerHashOutput_pos (p := p)
  refine ⟨List.Perm.of_eq ?_, ?_, fun t => ?_⟩
  · rw [generateList_eq _ 0 (by simp) (by rw [zero_add]; exact Nat.le_mul_of_pos_right _ hpos),
      map_map]
    exact map_congr_left fun i _ => hrow i
  · exact nodup_range.map fun i j h => by simpa using h
  · cases t with
    | leaf i => simp [Level, LeafTree.Perfect, InRange, LeafTree.leaves, LeafTree.AllNodes, initSize]
    | node l r => simp [Level, LeafTree.Perfect]

theorem sameJoin_row (hr : r ≤ p.K) (ha : S.Level r a) (hb : S.Level r b) (hne : a ≠ b) :
    sameJoin (fun a b => hasCollision a b p.collisionByteLength)
      (S.rowJoin (hashLenAt p r) (lenIndicesAt S.indexLen r)) (S.row a) (S.row b) =
      (S.join a b).map S.row := by
  have hordered : ∀ {a b}, S.Level r a → S.Level r b → a.leaves < b.leaves →
      sameJoin (fun a b => hasCollision a b p.collisionByteLength)
        (S.rowJoin (hashLenAt p r) (lenIndicesAt S.indexLen r)) (S.row a) (S.row b) =
        (S.join a b).map S.row := by
    intro a b ha hb hlt
    apply Option.ext
    intro c
    rw [sameJoin_eq_some, S.rowJoin_row hr ha.1 hb.1 ha.2.1 hb.2.1 hlt, Option.map_eq_some_iff]
    constructor
    · rintro ⟨hsiblings, rfl⟩
      exact ⟨_, S.join_eq_some.mpr (.inl ⟨hsiblings, rfl⟩), rfl⟩
    · rintro ⟨t, ht, rfl⟩
      obtain ⟨hsiblings, rfl⟩ | ⟨hsiblings, -⟩ := S.join_eq_some.mp ht
      · exact ⟨hsiblings, rfl⟩
      · exact absurd (S.siblings_lt hsiblings) (lt_asymm hlt)
  obtain hlt | hgt := ha.leaves_lt_or_gt hb hne
  · exact hordered ha hb hlt
  · rw [sameJoin_comm (hasCollision_iff_key _) (S.rowJoin_comm _ _), S.join_comm]
    exact hordered hb ha hgt

theorem round_holds (sorter : Sorter) (hr : r ≤ p.K) (h : S.Holds r X ts) :
    S.Holds (r + 1) (collide (fun a b => hasCollision a b p.collisionByteLength)
      (S.rowJoin (hashLenAt p r) (lenIndicesAt S.indexLen r))
      (sorter.sort (compareSR p.collisionByteLength) X)) (joinPairs S.join ts) where
  perm := by
    have hcollide := collide_sorted_perm (hasCollision_iff_key p.collisionByteLength)
      (S.rowJoin_comm (hashLenAt p r) (lenIndicesAt S.indexLen r))
      (sorter.sorted (sortKey p.collisionByteLength) (compareSR_iff_key _) X)
      ((sorter.perm _ X).trans h.perm)
    refine hcollide.trans (List.Perm.of_eq (joinPairs_map (h.nodup.imp_of_mem ?_)))
    intro a b ha hb hne
    exact S.sameJoin_row hr ((h.mem_iff a).mp ha) ((h.mem_iff b).mp hb) hne
  nodup := by
    refine joinPairs_nodup h.nodup fun a _ b _ a' _ b' _ t ht ht' => ?_
    rcases S.join_eq_some.mp ht with ⟨-, rfl⟩ | ⟨-, rfl⟩ <;>
      rcases S.join_eq_some.mp ht' with ⟨-, heq⟩ | ⟨-, heq⟩ <;> cases heq <;> simp
  mem_iff t := by
    rw [mem_joinPairs_of_nodup (fun a _ b _ => S.join_comm a b) h.nodup, S.level_succ_iff]
    simp only [h.mem_iff, join_eq_some]
    constructor
    · rintro ⟨a, ha, b, hb, -, hsiblings | hsiblings⟩
      · exact ⟨a, b, ha, hb, hsiblings⟩
      · exact ⟨b, a, hb, ha, hsiblings⟩
    · rintro ⟨a, b, ha, hb, hsiblings⟩
      refine ⟨a, ha, b, hb, ?_, .inl hsiblings⟩
      rintro rfl
      exact lt_irrefl _ (S.siblings_lt hsiblings.1)

/-- The rounds lead from the trees of one height to those of a greater one. An empty table may have
left the two lengths behind. -/
theorem rounds_holds (sorter : Sorter) (rounds : Nat) (hr : r + rounds ≤ p.K) (h : S.Holds r X ts) :
    ∃ hashLen lenIndices X' ts',
      collisionRounds sorter p S.rowJoin rounds (hashLenAt p r) (lenIndicesAt S.indexLen r) X =
        (hashLen, lenIndices, X') ∧
      S.Holds (r + rounds) X' ts' ∧
      (X' ≠ [] → hashLen = hashLenAt p (r + rounds) ∧
        lenIndices = lenIndicesAt S.indexLen (r + rounds)) := by
  induction rounds generalizing r X ts with
  | zero => exact ⟨_, _, X, ts, rfl, h, fun _ => ⟨rfl, rfl⟩⟩
  | succ rounds ih =>
    rw [collisionRounds]
    split
    · have hnext := S.round_holds sorter (by omega) h
      rw [hashLenAt_succ (by omega), lenIndicesAt_succ, show r + (rounds + 1) = r + 1 + rounds by
        omega]
      exact ih (by omega) hnext
    · next hempty =>
        have hX : X = [] := eq_nil_of_length_eq_zero (by omega)
        have hts : ts = [] := by
          have := h.perm.length_eq
          rw [hX, length_map] at this
          exact eq_nil_of_length_eq_zero this.symm
        refine ⟨_, _, X, [], rfl, ⟨by rw [hX]; rfl, nodup_nil, fun t => ?_⟩,
          fun hne => absurd hX hne⟩
        refine ⟨fun ht => absurd ht not_mem_nil, fun ht => ?_⟩
        obtain ⟨s, hs⟩ := S.level_of_higher ht
        rw [← h.mem_iff, hts] at hs
        exact absurd hs not_mem_nil

/-- The counters of a round run up to the size of the table before it, so an `int` suffices exactly
where there are few trees of its height. -/
theorem table_fits_iff (sorter : Sorter) (h : S.Holds 0 X ts) (hr : r ≤ p.K) :
    (collisionRounds sorter p S.rowJoin r (hashLenAt p 0) (lenIndicesAt S.indexLen 0) X).2.2.length <
      2 ^ 31 ↔ S.Few r := by
  obtain ⟨hashLen, lenIndices, X', ts', hrounds, hholds, -⟩ :=
    S.rounds_holds sorter r (by omega) h
  rw [hrounds]
  rw [zero_add] at hholds
  exact hholds.length_lt_iff

theorem mem_finalRound (sorter : Sorter) {final : Row → Row → Option Bytes}
    (hcomm : ∀ a b, final a b = final b a) {X : List Row} {ts : List (LeafTree Nat)}
    (h : S.Holds r X ts) {hashLen : Nat} {soln : Bytes} :
    soln ∈ finalRound sorter final hashLen X ↔
      ∃ a b, S.Level r a ∧ S.Level r b ∧ a.leaves < b.leaves ∧
        hasCollision (S.row a) (S.row b) hashLen = true ∧ final (S.row a) (S.row b) = some soln := by
  have hperm := groups_sorted_perm (hasCollision_iff_key hashLen) hcomm
    (sorter.sorted (sortKey hashLen) (compareSR_iff_key _) X) ((sorter.perm _ X).trans h.perm)
  have hsymm := sameJoin_comm (hasCollision_iff_key hashLen) hcomm
  have hmap := joinPairs_map (f := S.row) (g := id)
    (J := sameJoin (fun a b => hasCollision a b hashLen) final)
    (h.nodup.imp fun {a b} _ => (Option.map_id_apply (x := sameJoin _ final (S.row a) (S.row b))).symm)
  rw [finalRound, hperm.mem_iff, hmap, map_id,
    mem_joinPairs_of_nodup (fun a _ b _ => hsymm _ _) h.nodup]
  simp only [h.mem_iff]
  constructor
  · rintro ⟨a, ha, b, hb, hne, hsoln⟩
    obtain hlt | hgt := ha.leaves_lt_or_gt hb hne
    · exact ⟨a, b, ha, hb, hlt, sameJoin_eq_some.mp hsoln⟩
    · rw [hsymm] at hsoln
      exact ⟨b, a, hb, ha, hgt, sameJoin_eq_some.mp hsoln⟩
  · rintro ⟨a, b, ha, hb, hlt, hsoln⟩
    refine ⟨a, ha, b, hb, ?_, sameJoin_eq_some.mpr hsoln⟩
    rintro rfl
    exact lt_irrefl _ hlt

end Scheme

theorem offerAll_reject (solns : List Bytes) : offerAll (fun _ => false) solns = (solns, false) := by
  induction solns with
  | nil => rfl
  | cons soln solns ih => simp [offerAll, ih]

theorem offerAll_accepted (h : ∃ soln ∈ (offerAll validBlock solns).1, validBlock soln = true) :
    (offerAll validBlock solns).2 = true := by
  induction solns with
  | nil => simp [offerAll] at h
  | cons soln solns ih =>
    rw [offerAll] at h ⊢
    split at h
    · next hsoln => rw [if_pos hsoln]
    · next hsoln =>
        rw [if_neg hsoln]
        obtain ⟨soln', hmem, hvalid⟩ := h
        obtain rfl | hmem := mem_cons.mp hmem
        · exact absurd hvalid hsoln
        · exact ih ⟨soln', hmem, hvalid⟩

theorem offerAll_subset (validBlock : Bytes → Bool) (solns : List Bytes) :
    (offerAll validBlock solns).1 ⊆ solns := by
  induction solns with
  | nil => exact List.Subset.refl _
  | cons soln solns ih =>
    rw [offerAll]
    split
    · exact cons_subset_cons soln (nil_subset solns)
    · exact cons_subset_cons soln ih

end Utsuite.EquihashRounds
