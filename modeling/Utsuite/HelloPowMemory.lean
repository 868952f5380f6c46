import Utsuite.HelloPowDeterminism

namespace Utsuite.HelloPowMemory

open ByteWords ByteMem Rand48 HelloPow HelloPowDeterminism List Function

theorem leBytes_zero (width : Nat) : leBytes width 0 = replicate width 0 := by
  induction width with
  | zero => rfl
  | succ width ih => rw [leBytes, Nat.zero_div, ih]; rfl

theorem leValue_append_zeros (bs : Bytes) (k : Nat) :
    leValue (bs ++ replicate k 0) = leValue bs := by
  induction bs with
  | nil => rw [nil_append, ← leBytes_zero, leValue_leBytes, Nat.zero_mod]; rfl
  | cons b bs ih => rw [cons_append, leValue, ih, leValue]

theorem foldl_set_append (hn : 0 < n) (g : Bytes → Nat → UInt8) (is : List Nat)
    (hfront : front.length = n) (rest : Bytes) :
    ∃ front' : Bytes, front'.length = n ∧
      is.foldl (fun out i => out.set (i % n) (g out i)) (front ++ rest) = front' ++ rest := by
  induction is generalizing front with
  | nil => exact ⟨front, hfront, rfl⟩
  | cons i is ih =>
    have hlt : i % n < front.length := by
      rw [hfront]
      exact Nat.mod_lt i hn
    rw [foldl_cons, set_append_left _ _ hlt]
    apply ih
    rw [length_set, hfront]

theorem leValue_reduceBit_lt (width : Nat) (hpos : 0 < bits >>> 3) (hin : bits >>> 3 ≤ input.length) :
    leValue (reduceBit input (leBytes width 0) bits) < 256 ^ (bits >>> 3) := by
  have hlen : (input.take (bits >>> 3)).length = bits >>> 3 := length_take_of_le hin
  obtain ⟨front, hfront, heq⟩ := foldl_set_append hpos
    (fun out i => out.getD (i % (bits >>> 3)) 0 ^^^ input.getD (i % input.length) 0)
    (range' (bits >>> 3) (input.length - bits >>> 3)) hlen ((leBytes width 0).drop (bits >>> 3))
  rw [reduceBit, overwrite_zero, hlen]
  rw [heq, leBytes_zero, drop_replicate, leValue_append_zeros, ← hfront]
  exact leValue_lt front

def xorBelow (m : Mem) : Nat → UInt8
  | 0 => 0
  | n + 1 => xorBelow m n ^^^ m n

theorem xorBelow_update_above (m : Mem) (h : n ≤ i) (v : UInt8) :
    xorBelow (update m i v) n = xorBelow m n := by
  induction n with
  | zero => rfl
  | succ n ih => rw [xorBelow, ih (by omega), update_of_ne (by omega), xorBelow]

theorem xorBelow_update (m : Mem) (h : i < n) (v : UInt8) :
    xorBelow (update m i v) n = xorBelow m n ^^^ (m i ^^^ v) := by
  induction n with
  | zero => omega
  | succ n ih =>
    rw [xorBelow, xorBelow]
    rcases Nat.lt_succ_iff_lt_or_eq.mp h with hlt | rfl
    · rw [ih hlt, update_of_ne (by omega)]
      ac_rfl
    · rw [xorBelow_update_above m (le_refl i), update_self, UInt8.xor_assoc,
        ← UInt8.xor_assoc (m i), UInt8.xor_self, UInt8.zero_xor]

def exchange (m : Mem) (i j : Nat) (x : UInt8) : Mem :=
  update (update m i (m j ^^^ x)) j (m i ^^^ x)

theorem xorBelow_exchange (m : Mem) (hi : i < n) (hj : j < n) (hij : i ≠ j) (x : UInt8) :
    xorBelow (exchange m i j x) n = xorBelow m n := by
  have hcancel : m i ^^^ (m j ^^^ x) ^^^ (m j ^^^ (m i ^^^ x)) = 0 := by
    have hswap : m j ^^^ (m i ^^^ x) = m i ^^^ (m j ^^^ x) := by ac_rfl
    rw [hswap, UInt8.xor_self]
  rw [exchange, xorBelow_update _ hj, xorBelow_update _ hi, update_of_ne hij.symm,
    UInt8.xor_assoc, hcancel, UInt8.xor_zero]

theorem mixRound_mem (a : Bytes) (j : Nat) (s : MixState) :
    (mixRound a j s).mem = exchange s.mem (mixAddr1 (myRand48R s.randBuffer).1 s.r)
      (mixAddr2 (myRand48R s.randBuffer).1 s.r) (a.getD (j &&& 0x1f) 0) := by
  simp only [mixRound, exchange]

theorem mixOffset_bounds (r : UInt64) : 0 < (mixOffset r).toNat ∧ (mixOffset r).toNat < 2 ^ 16 := by
  have hlt : leValue (reduceBit (leBytes 8 r.toNat) (leBytes 8 0) 8) < 256 :=
    leValue_reduceBit_lt 8 (by decide) (by simp)
  rw [mixOffset, UInt64.toNat_add, UInt64.toNat_shiftLeft, UInt64.toNat_ofNat', Nat.shiftLeft_eq]
  simp only [UInt64.reduceToNat, Nat.reduceMod, Nat.reducePow]
  omega

-- The size divides 2^64, so the wrapped sums keep their residues: the two
-- addresses differ by twice the offset, which is no multiple of the size.
theorem mixAddr_ne (randNum r : UInt64) : mixAddr1 randNum r ≠ mixAddr2 randNum r := by
  obtain ⟨hpos, hlt⟩ := mixOffset_bounds r
  have hsize : (UInt64.ofNat workMemorySize).toNat = 2 ^ 20 := by decide
  rw [mixAddr1, mixAddr2, UInt64.toNat_mod, UInt64.toNat_mod, UInt64.toNat_sub, UInt64.toNat_add,
    UInt64.toNat_add _ (mixOffset r), hsize]
  generalize (mixOffset r).toNat = offset at *
  generalize (randNum + r).toNat = base
  omega

/-- Two different cells of the work memory that are exchanged, and the byte added to both. -/
structure Exchange where
  i : Nat
  j : Nat
  x : UInt8
  i_lt : i < workMemorySize
  j_lt : j < workMemorySize
  ne : i ≠ j

def Exchange.apply (m : Mem) (e : Exchange) : Mem := exchange m e.i e.j e.x

def mixExchange (a : Bytes) (j : Nat) (s : MixState) : Exchange where
  i := mixAddr1 (myRand48R s.randBuffer).1 s.r
  j := mixAddr2 (myRand48R s.randBuffer).1 s.r
  x := a.getD (j &&& 0x1f) 0
  i_lt := address_lt _
  j_lt := address_lt _
  ne := mixAddr_ne _ _

theorem xorBelow_exchanges (es : List Exchange) (m : Mem) :
    xorBelow (es.foldl Exchange.apply m) workMemorySize = xorBelow m workMemorySize := by
  induction es generalizing m with
  | nil => rfl
  | cons e es ih => rw [foldl_cons, ih, Exchange.apply, xorBelow_exchange m e.i_lt e.j_lt e.ne]

theorem mixRounds_exchanges (a : Bytes) (n : Nat) (s : MixState) :
    ∃ es : List Exchange, es.length = n ∧ (mixRounds a n s).mem = es.foldl Exchange.apply s.mem := by
  induction n with
  | zero => exact ⟨[], rfl, rfl⟩
  | succ n ih =>
    obtain ⟨es, hlen, hmem⟩ := ih
    refine ⟨es ++ [mixExchange a n (mixRounds a n s)], ?_, ?_⟩
    · rw [length_append, hlen]
      rfl
    · rw [mixRounds, mixRound_mem, foldl_append, ← hmem, foldl_cons, foldl_nil, Exchange.apply,
        mixExchange]

theorem modifyRounds_exchanges (F : FuncInfor) (L : Nat) (aRrs : Nat → Bytes) (n : Nat)
    (s : ModifyState) :
    ∃ es : List Exchange, es.length = n * (L <<< 6 % 2 ^ 32) ∧
      (modifyRounds F L aRrs n s).mem = es.foldl Exchange.apply s.mem := by
  induction n with
  | zero => exact ⟨[], (Nat.zero_mul _).symm, rfl⟩
  | succ n ih =>
    obtain ⟨es, hlen, hmem⟩ := ih
    rw [modifyRounds, modifyRound]
    dsimp only
    obtain ⟨es', hlen', hmem'⟩ := mixRounds_exchanges (modifyRounds F L aRrs n s).a
      (L <<< 6 % 2 ^ 32) ⟨mySeed48R (UInt64.ofNat (leValue (reduceBit
        (modifyRounds F L aRrs n s).a (leBytes 8 0) 48))), (modifyRounds F L aRrs n s).r,
        (modifyRounds F L aRrs n s).b, (modifyRounds F L aRrs n s).mem⟩
    refine ⟨es ++ es', by rw [length_append, hlen, hlen', Nat.succ_mul], ?_⟩
    rw [hmem', foldl_append, hmem]

/-- A turn of step 2 exchanges two different cells of the work memory, a run of it is one such
exchange after the other, and the xor of all bytes stays as it was. -/
theorem modifyWorkMemory_exchanges :
    (∀ randNum r : UInt64, mixAddr1 randNum r < workMemorySize ∧ mixAddr2 randNum r < workMemorySize ∧
      mixAddr1 randNum r ≠ mixAddr2 randNum r) ∧
    (∀ (a : Bytes) (j : Nat) (s : MixState),
      (mixRound a j s).mem = exchange s.mem (mixAddr1 (myRand48R s.randBuffer).1 s.r)
        (mixAddr2 (myRand48R s.randBuffer).1 s.r) (a.getD (j &&& 0x1f) 0)) ∧
    ∀ (F : FuncInfor) (mem : Mem) (L C : Nat) (result b : Bytes) (aRrs : Nat → Bytes),
      (∃ es : List Exchange, es.length = C * (L <<< 6 % 2 ^ 32) ∧
        (modifyWorkMemory F mem L C result b aRrs).2 = es.foldl Exchange.apply mem) ∧
      xorBelow (modifyWorkMemory F mem L C result b aRrs).2 workMemorySize =
        xorBelow mem workMemorySize := by
  refine ⟨?_, mixRound_mem, ?_⟩
  · intro randNum r
    exact ⟨address_lt _, address_lt _, mixAddr_ne randNum r⟩
  · intro F mem L C result b aRrs
    rw [modifyWorkMemory]
    obtain ⟨es, hlen, hmem⟩ := modifyRounds_exchanges F L aRrs C _
    exact ⟨⟨es, hlen, hmem⟩, by rw [hmem, xorBelow_exchanges]⟩

def absorb (mem : Mem) (blocks : List Nat) (result : Bytes) : Bytes :=
  blocks.foldl (fun result i => xorBytes result (load mem (i <<< 5) 32)) result

def applyBatch (F : FuncInfor) (mem : Mem) (result : Bytes) (batch : Batch) : Bytes :=
  F.func batch.f (rotated (absorb mem batch.blocks result) batch.shiftNum.toUInt32)

theorem absorb_length (mem : Mem) (blocks : List Nat) (h : result.length = 32) :
    (absorb mem blocks result).length = 32 := by
  induction blocks generalizing result with
  | nil => exact h
  | cons i blocks ih =>
    apply ih
    rw [xorBytes_length (by rw [h, load_length]), h]

theorem absorbBlocks_eq (mem : Mem) (d : Nat) (hi : i < num) (result : Bytes) :
    absorbBlocks mem num d i result =
      ((decide (num ≤ i + d), i + min d (num - i),
        absorb mem (range' i (min d (num - i))) result), range' i (min d (num - i))) := by
  induction d generalizing i result with
  | zero => simp [absorbBlocks, absorb, hi]
  | succ d ih =>
    rw [absorbBlocks]
    split
    next hlast =>
      have hmin : min (d + 1) (num - i) = 1 := by omega
      have hstop : num ≤ i + (d + 1) := by omega
      simp [hmin, hstop, absorb]
    next hlast =>
      have hmin : min (d + 1) (num - i) = min d (num - (i + 1)) + 1 := by omega
      simp only [ih (i := i + 1) (by omega), hmin, range'_succ, absorb, foldl_cons]
      simp only [add_assoc, add_comm 1]

/-- What the batches from block `i` on look like. They cover the blocks left in order, and none of
them is empty or longer than `2 ^ D`. -/
structure Consumes (num D i : Nat) (batches : List Batch) : Prop where
  blocks : (batches.map Batch.blocks).flatten = range' i (num - i)
  sizes : ∀ b ∈ batches, b.blocks ≠ [] ∧ b.blocks.length ≤ 2 ^ D
  last : ∃ before b, batches = before ++ [b] ∧ b.f = 0

theorem batch_le (hD : D = 8 ∨ D = 16 ∨ D = 24) (h : result.length = 32) :
    leValue (reduceBit result (leBytes 4 0) D) + 1 ≤ 2 ^ D := by
  rcases hD with rfl | rfl | rfl
  all_goals exact leValue_reduceBit_lt 4 (by decide) (by rw [h]; decide)

theorem finalRounds_spec (F : FuncInfor) (mem : Mem) (num : Nat) (hD : D = 8 ∨ D = 16 ∨ D = 24)
    (fuel : Nat) (hi : i < num) (hfuel : num ≤ i + fuel) (hresult : result.length = 32)
    (resultRrs : Bytes) :
    ∃ out batches, finalRounds F mem num D fuel i result resultRrs = some (out, batches) ∧
      out = batches.foldl (applyBatch F mem) result ∧ Consumes num D i batches := by
  induction fuel generalizing i result resultRrs with
  | zero => omega
  | succ fuel ih =>
    have hd := batch_le hD hresult
    rw [finalRounds]
    generalize leValue (reduceBit result (leBytes 4 0) D) = d' at hd
    simp only [absorbBlocks_eq mem _ hi, rrs_take (absorb_length mem _ hresult), decide_eq_true_eq]
    split
    next hstop =>
      have hmin : min (d' + 1) (num - i) = num - i := by omega
      refine ⟨_, _, rfl, rfl, ?_, ?_, [], _, rfl, rfl⟩
      · simp [hmin]
      · simp
        omega
    next hstop =>
      have hmin : min (d' + 1) (num - i) = d' + 1 := by omega
      obtain ⟨out, batches, hlog, hout, hblocks, hsizes, before, b, hlast, hb⟩ :=
        ih (i := i + (d' + 1)) (by omega) (by omega) (F.size (selector (foldByte result 0)) _)
          (rrs (absorb mem (range' i (d' + 1)) result) resultRrs
            (foldByte (leBytes 4 (i + (d' + 1) + (selector (foldByte result 0)).val)) 0).toUInt32)
      rw [hmin, hlog]
      refine ⟨_, _, rfl, hout, ?_, ?_, ⟨_ :: before, b, by rw [hlast]; rfl, hb⟩⟩
      · rw [map_cons, flatten_cons, hblocks, range'_append_1]
        congr 1
        omega
      · intro b hb
        rcases mem_cons.mp hb with rfl | hb
        · exact ⟨by simp, by simpa using hd⟩
        · exact hsizes b hb

theorem Consumes.inside (h : Consumes num D 0 batches) (hb : b ∈ batches) (hi : i ∈ b.blocks) :
    i < num := by
  have hmem : i ∈ (batches.map Batch.blocks).flatten :=
    mem_flatten.mpr ⟨b.blocks, mem_map_of_mem hb, hi⟩
  rw [h.blocks, mem_range'_1] at hmem
  omega

/-- Step 3 ends after it has used every block but the last one, each of them once and in order. Its
result is the fold of the batches over the first digest. -/
theorem calculateFinalResult_consumes_once (F : FuncInfor) (mem : Mem) (c : Bytes)
    (hc : c.length = outputLen) (D : Nat) (hD : D = 8 ∨ D = 16 ∨ D = 24) (result resultRrs : Bytes)
    (hresult : result.length = outputLen) :
    ∃ out batches, calculateFinalResult F mem c D result resultRrs = some out ∧
      calculateFinalResultLog F mem c D result resultRrs = some (out, batches) ∧
      out = batches.foldl (applyBatch F mem) c ∧
      (batches.map Batch.blocks).flatten = range (workMemorySize / 32 - 1) ∧
      (∀ b ∈ batches, b.blocks ≠ [] ∧ b.blocks.length ≤ 2 ^ D ∧
        ∀ i ∈ b.blocks, i <<< 5 + 32 ≤ workMemorySize) ∧
      ∃ before b, batches = before ++ [b] ∧ b.f = 0 := by
  have hstart : overwrite result 0 (c.take outputLen) = c := by
    rw [take_of_length_le (by omega), overwrite_all (by omega)]
  have hnum : workMemorySize >>> 5 - 1 = workMemorySize / 32 - 1 := by rw [Nat.shiftRight_eq_div_pow]
  obtain ⟨out, batches, hlog, hout, hconsumes⟩ :=
    finalRounds_spec F mem (workMemorySize / 32 - 1) hD (workMemorySize / 32 - 1) (i := 0)
      (by decide) (by omega) hc resultRrs
  have hresultLog : calculateFinalResultLog F mem c D result resultRrs = some (out, batches) := by
    rw [calculateFinalResultLog, hstart, hnum, hlog]
  refine ⟨out, batches, by rw [calculateFinalResult, hresultLog]; rfl, hresultLog, hout, ?_, ?_,
    hconsumes.last⟩
  · rw [hconsumes.blocks, Nat.sub_zero, range_eq_range']
  · intro b hb
    refine ⟨(hconsumes.sizes b hb).1, (hconsumes.sizes b hb).2, ?_⟩
    intro i hi
    have hlt := hconsumes.inside hb hi
    have hsize : workMemorySize = 1024 * 1024 := rfl
    rw [Nat.shiftLeft_eq]
    omega

theorem calculateFinalResult_consumes_once_zeros :
    ∃ out batches,
      calculateFinalResult ⟨fun _ _ => replicate 32 0, fun _ _ => rfl⟩ (fun _ => 0)
        (replicate 32 7) 16 (replicate 32 0) [] = some out ∧
      calculateFinalResultLog ⟨fun _ _ => replicate 32 0, fun _ _ => rfl⟩ (fun _ => 0)
        (replicate 32 7) 16 (replicate 32 0) [] = some (out, batches) ∧
      (batches.map Batch.blocks).flatten = range (workMemorySize / 32 - 1) := by
  obtain ⟨out, batches, hout, hlog, _, hblocks, _⟩ := calculateFinalResult_consumes_once
    ⟨fun _ _ => replicate 32 0, fun _ _ => rfl⟩ (fun _ => 0) (replicate 32 7) rfl 16
    (.inr (.inl rfl)) (replicate 32 0) [] rfl
  exact ⟨out, batches, hout, hlog, hblocks⟩

end Utsuite.HelloPowMemory
