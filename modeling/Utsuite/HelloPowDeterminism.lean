import Utsuite.HelloPow

namespace Utsuite.HelloPowDeterminism

open ByteWords ByteMem Rand48 HelloPow List Function

theorem overwrite_zero (buf bs : Bytes) : overwrite buf 0 bs = bs ++ buf.drop bs.length := by
  simp [overwrite]

theorem reduceBit_congr (output output' : Bytes) (hin : bits >>> 3 ≤ input.length)
    (h : output.drop (bits >>> 3) = output'.drop (bits >>> 3)) :
    reduceBit input output bits = reduceBit input output' bits := by
  have hlen : (input.take (bits >>> 3)).length = bits >>> 3 := by
    rw [length_take]
    omega
  simp only [reduceBit, overwrite_zero, hlen, h]

theorem foldl_set_length (js : List Nat) (f : Bytes → Nat → Nat) (g : Bytes → Nat → UInt8) (out : Bytes) :
    (js.foldl (fun out i => out.set (f out i) (g out i)) out).length = out.length := by
  induction js generalizing out with
  | nil => rfl
  | cons j js ih => rw [foldl_cons, ih, length_set]

theorem reduceBit_length (hin : bits >>> 3 ≤ input.length) (hout : bits >>> 3 ≤ output.length) :
    (reduceBit input output bits).length = output.length := by
  rw [reduceBit, foldl_set_length, overwrite_length]
  rw [length_take]
  omega

theorem foldByte_congr (hin : 1 ≤ input.length) (old old' : UInt8) :
    foldByte input old = foldByte input old' := by
  rw [foldByte, foldByte, reduceBit_congr [old] [old'] (by simpa using hin) (by simp)]

@[simp] theorem rotated_length (input : Bytes) (bits : UInt32) : (rotated input bits).length = input.length := by
  simp [rotated]

theorem rrs_take (hin : input.length = n) :
    (rrs input output bits).take n = rotated input bits := by
  rw [rrs, overwrite_zero]
  exact take_left' (by simpa using hin)

theorem rrs_eq_rotated (h : output.length = input.length) :
    rrs input output bits = rotated input bits := by
  rw [rrs, overwrite_all (by simpa using h)]

theorem xorBytes_length (h : a.length = b.length) : (xorBytes a b).length = a.length := by
  simp [xorBytes, h]

theorem drawBlock_eq (randBuffer : Fin 4 → MyRand48Data) (hb : b.length = outputLen) :
    drawBlock randBuffer b =
      (leBytes 8 (myRand64R (randBuffer 0)).1.toNat ++ leBytes 8 (myRand64R (randBuffer 1)).1.toNat ++
        leBytes 8 (myRand64R (randBuffer 2)).1.toNat ++ leBytes 8 (myRand64R (randBuffer 3)).1.toNat,
      fun j => (myRand64R (randBuffer j)).2) := by
  have hwords (w0 w1 w2 w3 : Nat) :
      overwrite (overwrite (overwrite (overwrite b 0 (leBytes 8 w0)) 8 (leBytes 8 w1)) 16 (leBytes 8 w2))
        24 (leBytes 8 w3) = leBytes 8 w0 ++ leBytes 8 w1 ++ leBytes 8 w2 ++ leBytes 8 w3 := by
    simp only [outputLen] at hb
    have happend (bs cs : Bytes) (h : bs.length ≤ 32) :
        overwrite (overwrite b 0 bs) (0 + bs.length) cs = overwrite b 0 (bs ++ cs) :=
      overwrite_append bs cs (by omega)
    have h1 := happend (leBytes 8 w0) (leBytes 8 w1) (by simp)
    have h2 := happend (leBytes 8 w0 ++ leBytes 8 w1) (leBytes 8 w2) (by simp)
    have h3 := happend (leBytes 8 w0 ++ leBytes 8 w1 ++ leBytes 8 w2) (leBytes 8 w3) (by simp)
    simp only [length_append, leBytes_length, Nat.reduceAdd] at h1 h2 h3
    rw [h1, h2, h3]
    exact overwrite_all (by simp; omega)
  have hbuf : (fun j => (myRand64R (randBuffer j)).2) =
      update (update (update (update randBuffer
        0 (myRand64R (randBuffer 0)).2) 1 (myRand64R (randBuffer 1)).2)
        2 (myRand64R (randBuffer 2)).2) 3 (myRand64R (randBuffer 3)).2 := by
    funext j
    match j with
    | 0 | 1 | 2 | 3 => rfl
  rw [hbuf, ← hwords]
  rfl

structure InitRel (i : Nat) (s s' : InitState) : Prop where
  a : s.a = s'.a
  a_length : s.a.length = outputLen
  b_length : s.b.length = outputLen
  b_length' : s'.b.length = outputLen
  randSeed : s.randSeed = s'.randSeed
  randBuffer : 0 < i → s.randBuffer = s'.randBuffer
  mem : AgreeBelow (i <<< 5) s.mem s'.mem

theorem agree_store_block (h : AgreeBelow (i <<< 5) m m') (hbs : bs.length = outputLen) :
    AgreeBelow ((i + 1) <<< 5) (store m (i <<< 5) bs) (store m' (i <<< 5) bs) := by
  have hs := agree_store_end h bs
  rw [hbs] at hs
  rwa [show (i + 1) <<< 5 = i <<< 5 + outputLen by
    simp only [Nat.shiftLeft_eq, outputLen, Nat.reducePow]
    omega]

theorem initRound_rel (F : FuncInfor) (scratch scratch' : InitScratch) (h : InitRel i s s') :
    InitRel (i + 1) (initRound F 128 scratch i s) (initRound F 128 scratch' i s') := by
  by_cases hi : i % 128 = 0
  · have hrot (bits : UInt32) : (rrs s.a scratch.aRrs bits).take 32 =
        (rrs s'.a scratch'.aRrs bits).take 32 := by
      rw [rrs_take (n := 32) h.a_length, rrs_take (n := 32) (h.a ▸ h.a_length), h.a]
    have hlen (t : Fin 16) (m : Bytes) : (F.func t m).take 32 = F.func t m :=
      take_of_length_le (by simp [F.size, outputLen])
    simp only [initRound, hi, ne_eq, not_true_eq_false, if_false, hlen, hrot, ← h.a, ← h.randSeed]
    exact ⟨rfl, F.size _ _, h.b_length, h.b_length', rfl, fun _ => rfl,
      agree_store_block h.mem (F.size _ _)⟩
  · have hpos : 0 < i := pos_of_ne_zero (by rintro rfl; exact hi rfl)
    have hblock : drawBlock s.randBuffer s.b = drawBlock s'.randBuffer s'.b := by
      rw [drawBlock_eq _ h.b_length, drawBlock_eq _ h.b_length', h.randBuffer hpos]
    have hlen : (drawBlock s'.randBuffer s'.b).1.length = outputLen := by
      rw [drawBlock_eq _ h.b_length']
      simp [outputLen]
    have hshift : foldByte (leBytes 4 i) scratch.shiftNum = foldByte (leBytes 4 i) scratch'.shiftNum :=
      foldByte_congr (by simp) _ _
    have hrot (bits : UInt32) : rrs (drawBlock s'.randBuffer s'.b).1 scratch.result bits =
        rrs (drawBlock s'.randBuffer s'.b).1 scratch'.result bits := by
      rw [rrs_eq_rotated (scratch.result_length.trans hlen.symm),
        rrs_eq_rotated (scratch'.result_length.trans hlen.symm)]
    have hres (bits : UInt32) :
        (rrs (drawBlock s'.randBuffer s'.b).1 scratch'.result bits).length = outputLen := by
      rw [rrs_eq_rotated (scratch'.result_length.trans hlen.symm), rotated_length, hlen]
    simp only [initRound, hi, ne_eq, not_false_eq_true, if_true, hblock, hshift, hrot, h.a]
    refine ⟨rfl, ?_, hlen, hlen, h.randSeed, fun _ => rfl, ?_⟩
    · rw [xorBytes_length (by rw [← h.a, h.a_length, hres]), ← h.a, h.a_length]
    · apply agree_store_block h.mem
      rw [length_take, hres, Nat.min_self]

theorem initRounds_rel (F : FuncInfor) (scratch scratch' : Nat → InitScratch) (n : Nat)
    (h : InitRel 0 s s') :
    InitRel n (initRounds F 128 scratch n s) (initRounds F 128 scratch' n s') := by
  induction n with
  | zero => exact h
  | succ n ih => exact initRound_rel F (scratch n) (scratch' n) ih

theorem initWorkMemory_agree (F : FuncInfor) (input : Bytes) (mem mem' : Mem) (u u' : Uninitialised) :
    AgreeBelow workMemorySize (initWorkMemory F input mem 128 u.initB u.randBuffer u.initScratch)
      (initWorkMemory F input mem' 128 u'.initB u'.randBuffer u'.initScratch) := by
  have hstart : InitRel 0
      ⟨F.func 0 input, u.initB, fun _ => 0, u.randBuffer, mem⟩
      ⟨F.func 0 input, u'.initB, fun _ => 0, u'.randBuffer, mem'⟩ :=
    ⟨rfl, F.size _ _, u.initB_length, u'.initB_length, rfl, fun h => absurd h (lt_irrefl 0),
      fun i hi => absurd hi (Nat.not_lt_zero i)⟩
  have hsize : (workMemorySize >>> 5) <<< 5 = workMemorySize := by decide
  unfold initWorkMemory
  generalize workMemorySize >>> 5 = n at hsize ⊢
  rw [← hsize]
  exact (initRounds_rel F u.initScratch u'.initScratch n hstart).mem

/-- Two runs of step 2 before round `j`. Of the array `b` only the bytes written so far agree. -/
structure MixRel (j : Nat) (s s' : MixState) : Prop where
  randBuffer : s.randBuffer = s'.randBuffer
  r : s.r = s'.r
  b_length : s.b.length = 64
  b_length' : s'.b.length = 64
  b : ∀ k, k < j → k < 64 → s.b[k]? = s'.b[k]?
  mem : AgreeBelow workMemorySize s.mem s'.mem

theorem address_lt (x : UInt64) : (x % UInt64.ofNat workMemorySize).toNat < workMemorySize := by
  rw [UInt64.toNat_mod]
  exact Nat.mod_lt _ (by decide)

theorem agree_update (h : AgreeBelow n m m') (i : Nat) (v : UInt8) :
    AgreeBelow n (update m i v) (update m' i v) := by
  intro k hk
  by_cases hki : k = i
  · subst k
    rw [update_self, update_self]
  · rw [update_of_ne hki, update_of_ne hki, h k hk]

theorem mixRound_rel (a : Bytes) (h : MixRel j s s') :
    MixRel (j + 1) (mixRound a j s) (mixRound a j s') := by
  have hread (x : UInt64) : s.mem (x % UInt64.ofNat workMemorySize).toNat =
      s'.mem (x % UInt64.ofNat workMemorySize).toNat := h.mem _ (address_lt x)
  have hidx : j &&& 0x3f = j % 64 := Nat.and_two_pow_sub_one_eq_mod j 6
  refine ⟨?_, ?_, ?_, ?_, ?_, ?_⟩
  · simp only [mixRound, mixAddr1, mixAddr2, h.randBuffer]
  · simp only [mixRound, mixAddr1, mixAddr2, h.randBuffer, h.r, hread]
  · simp [mixRound, h.b_length]
  · simp [mixRound, h.b_length']
  · intro k hk hk64
    simp only [mixRound, mixAddr1, mixAddr2, h.randBuffer, h.r, hread, hidx]
    by_cases hkj : j % 64 = k
    · rw [getElem?_set, getElem?_set, if_pos hkj, if_pos hkj, h.b_length, h.b_length']
    · rw [getElem?_set_ne hkj, getElem?_set_ne hkj]
      exact h.b k (by omega) hk64
  · simp only [mixRound, mixAddr1, mixAddr2, h.randBuffer, h.r, hread]
    exact agree_update (agree_update h.mem _ _) _ _

theorem mixRounds_rel (a : Bytes) (n : Nat) (h : MixRel 0 s s') :
    MixRel n (mixRounds a n s) (mixRounds a n s') := by
  induction n with
  | zero => exact h
  | succ n ih => exact mixRound_rel a ih

theorem mixRel_b_eq (h : MixRel j s s') (hj : 64 ≤ j) : s.b = s'.b := by
  apply ext_getElem?
  intro k
  by_cases hk : k < 64
  · exact h.b k (by omega) hk
  · rw [getElem?_eq_none (by rw [h.b_length]; omega),
      getElem?_eq_none (by rw [h.b_length']; omega)]

structure ModifyRel (s s' : ModifyState) : Prop where
  a : s.a = s'.a
  a_length : s.a.length = outputLen
  b_length : s.b.length = 64
  b_length' : s'.b.length = 64
  r : s.r = s'.r
  result : s.result = s'.result
  result_length : s.result.length = outputLen
  mem : AgreeBelow workMemorySize s.mem s'.mem

theorem modifyRound_rel (F : FuncInfor) (hL : 64 ≤ L <<< 6 % 2 ^ 32) (aRrs aRrs' : Bytes) (i : Nat)
    (h : ModifyRel s s') : ModifyRel (modifyRound F L aRrs i s) (modifyRound F L aRrs' i s') := by
  let start (s : ModifyState) : MixState :=
    ⟨mySeed48R (UInt64.ofNat (leValue (reduceBit s.a (leBytes 8 0) 48))), s.r, s.b, s.mem⟩
  have hmix : MixRel (L <<< 6 % 2 ^ 32) (mixRounds s.a (L <<< 6 % 2 ^ 32) (start s)) (mixRounds s.a (L <<< 6 % 2 ^ 32) (start s')) :=
    mixRounds_rel s.a (L <<< 6 % 2 ^ 32) ⟨by simp only [start, h.a], h.r, h.b_length, h.b_length',
      fun k hk => absurd hk (Nat.not_lt_zero k), h.mem⟩
  have hb := mixRel_b_eq hmix hL
  -- at least 64 mixing rounds have been made, so every byte of `b` has been written
  have hfold : (reduceBit (mixRounds s.a (L <<< 6 % 2 ^ 32) (start s')).b s.a 256).length = outputLen := by
    rw [reduceBit_length (by rw [hmix.b_length']; decide) (by rw [h.a_length]; decide), h.a_length]
  have hstart' : mixRounds s'.a (L <<< 6 % 2 ^ 32) (start s') = mixRounds s.a (L <<< 6 % 2 ^ 32) (start s') := by rw [h.a]
  have hrot (bits : UInt32) :
      (rrs (reduceBit (mixRounds s.a (L <<< 6 % 2 ^ 32) (start s')).b s.a 256) aRrs bits).take 32 =
        (rrs (reduceBit (mixRounds s.a (L <<< 6 % 2 ^ 32) (start s')).b s.a 256) aRrs' bits).take 32 := by
    rw [rrs_take (n := 32) hfold, rrs_take (n := 32) hfold]
  have ha : (modifyRound F L aRrs i s).a = (modifyRound F L aRrs' i s').a := by
    change F.func (selector (foldByte (leBytes 8 (mixRounds s.a (L <<< 6 % 2 ^ 32) (start s)).r.toNat) 0))
        ((rrs (reduceBit (mixRounds s.a (L <<< 6 % 2 ^ 32) (start s)).b s.a 256) aRrs _).take 32) =
      F.func (selector (foldByte (leBytes 8 (mixRounds s'.a (L <<< 6 % 2 ^ 32) (start s')).r.toNat) 0))
        ((rrs (reduceBit (mixRounds s'.a (L <<< 6 % 2 ^ 32) (start s')).b s'.a 256) aRrs' _).take 32)
    rw [hb, hmix.r, hstart', ← h.a, hrot]
  refine ⟨ha, F.size _ _, hmix.b_length, ?_, ?_, ?_, ?_, ?_⟩
  · change (mixRounds s'.a (L <<< 6 % 2 ^ 32) (start s')).b.length = 64
    rw [hstart', hmix.b_length']
  · change (mixRounds s.a (L <<< 6 % 2 ^ 32) (start s)).r = (mixRounds s'.a (L <<< 6 % 2 ^ 32) (start s')).r
    rw [hstart', hmix.r]
  · change xorBytes s.result (modifyRound F L aRrs i s).a = xorBytes s'.result (modifyRound F L aRrs' i s').a
    rw [ha, h.result]
  · change (xorBytes s.result (modifyRound F L aRrs i s).a).length = outputLen
    have hsize : (modifyRound F L aRrs i s).a.length = outputLen := F.size _ _
    rw [xorBytes_length (h.result_length.trans hsize.symm), h.result_length]
  · change AgreeBelow workMemorySize (mixRounds s.a (L <<< 6 % 2 ^ 32) (start s)).mem
      (mixRounds s'.a (L <<< 6 % 2 ^ 32) (start s')).mem
    rw [hstart']
    exact hmix.mem

theorem modifyRounds_rel (F : FuncInfor) (hL : 64 ≤ L <<< 6 % 2 ^ 32) (aRrs aRrs' : Nat → Bytes)
    (n : Nat) (h : ModifyRel s s') :
    ModifyRel (modifyRounds F L aRrs n s) (modifyRounds F L aRrs' n s') := by
  induction n with
  | zero => exact h
  | succ n ih => exact modifyRound_rel F hL (aRrs n) (aRrs' n) n ih

theorem modifyWorkMemory_rel (F : FuncInfor) (C : Nat) (h : AgreeBelow workMemorySize mem mem')
    (u u' : Uninitialised) :
    (modifyWorkMemory F mem 4 C u.c u.modifyB u.aRrs).1 =
        (modifyWorkMemory F mem' 4 C u'.c u'.modifyB u'.aRrs).1 ∧
      (modifyWorkMemory F mem 4 C u.c u.modifyB u.aRrs).1.length = outputLen ∧
      AgreeBelow workMemorySize (modifyWorkMemory F mem 4 C u.c u.modifyB u.aRrs).2
        (modifyWorkMemory F mem' 4 C u'.c u'.modifyB u'.aRrs).2 := by
  have hlast : load mem (workMemorySize - 32) 32 = load mem' (workMemorySize - 32) 32 :=
    agree_load h (by simp only [workMemorySize]; omega)
  have hres (u : Uninitialised) (a : Bytes) (ha : a.length = outputLen) : overwrite u.c 0 a = a :=
    overwrite_all (u.c_length.trans ha.symm)
  simp only [modifyWorkMemory, hlast, hres _ _ (F.size _ _)]
  let a := F.func 0 (load mem' (workMemorySize - 32) 32)
  let r := UInt64.ofNat (leValue (reduceBit a (leBytes 8 0) 64))
  have hstart : ModifyRel ⟨a, u.modifyB, r, a, mem⟩ ⟨a, u'.modifyB, r, a, mem'⟩ :=
    ⟨rfl, F.size _ _, u.modifyB_length, u'.modifyB_length, rfl, rfl, F.size _ _, h⟩
  have hrel := modifyRounds_rel F (L := 4) (by decide) u.aRrs u'.aRrs C hstart
  exact ⟨hrel.result, hrel.result_length, hrel.mem⟩

theorem absorbBlocks_rel (h : AgreeBelow (num <<< 5) mem mem') (d : Nat) (hi : i < num)
    (hr : result.length = outputLen) :
    absorbBlocks mem num d i result = absorbBlocks mem' num d i result ∧
      (absorbBlocks mem num d i result).1.2.2.length = outputLen ∧
      ((absorbBlocks mem num d i result).1.1 = false →
        (absorbBlocks mem num d i result).1.2.1 = i + d ∧ i + d < num) := by
  induction d generalizing i result with
  | zero => exact ⟨rfl, hr, fun _ => ⟨rfl, hi⟩⟩
  | succ d ih =>
    have hblock : load mem (i <<< 5) 32 = load mem' (i <<< 5) 32 := by
      apply agree_load h
      simp only [Nat.shiftLeft_eq, Nat.reducePow]
      omega
    have hx : (xorBytes result (load mem' (i <<< 5) 32)).length = outputLen := by
      rw [xorBytes_length (by rw [hr, load_length]; rfl), hr]
    simp only [absorbBlocks, hblock]
    by_cases hnum : i + 1 = num
    · simp [hnum, hx]
    · obtain ⟨h1, h2, h3⟩ := ih (i := i + 1) (by omega) hx
      simp only [hnum, if_false]
      refine ⟨by rw [h1], h2, fun hs => ?_⟩
      obtain ⟨h4, h5⟩ := h3 hs
      exact ⟨by omega, by omega⟩

theorem finalRounds_rel (F : FuncInfor) (h : AgreeBelow (num <<< 5) mem mem') (fuel : Nat)
    (hi : i < num) (hfuel : num - i ≤ fuel) (hr : result.length = outputLen)
    (hrrs : resultRrs.length = outputLen) (hrrs' : resultRrs'.length = outputLen) :
    ∃ out, out.1.length = outputLen ∧ finalRounds F mem num D fuel i result resultRrs = some out ∧
      finalRounds F mem' num D fuel i result resultRrs' = some out := by
  induction fuel generalizing i result resultRrs resultRrs' with
  | zero => omega
  | succ fuel ih =>
    obtain ⟨hsame, hlen, hgo⟩ :=
      absorbBlocks_rel h (leValue (reduceBit result (leBytes 4 0) D) + 1) hi hr
    simp only [finalRounds, ← hsame]
    generalize absorbBlocks mem num (leValue (reduceBit result (leBytes 4 0) D) + 1) i result = r at *
    obtain ⟨⟨stop, i', result'⟩, blocks⟩ := r
    have hrot (bits : UInt32) : rrs result' resultRrs bits = rotated result' bits :=
      rrs_eq_rotated (hrrs.trans hlen.symm)
    have hrot' (bits : UInt32) : rrs result' resultRrs' bits = rotated result' bits :=
      rrs_eq_rotated (hrrs'.trans hlen.symm)
    simp only [hrot, hrot']
    cases stop with
    | true => exact ⟨_, F.size _ _, rfl, rfl⟩
    | false =>
      obtain ⟨hi', hlt⟩ := hgo rfl
      simp only at hi' hlen
      have hrotated (bits : UInt32) : (rotated result' bits).length = outputLen := by
        rw [rotated_length, hlen]
      generalize foldByte (leBytes 4 (i' + (selector (foldByte result 0)).val)) 0 = shiftNum
      obtain ⟨out, hout, hfirst, hsecond⟩ := ih (i := i') (by omega) (by omega)
        (F.size (selector (foldByte result 0)) ((rotated result' shiftNum.toUInt32).take 32))
        (hrotated shiftNum.toUInt32) (hrotated shiftNum.toUInt32)
      rw [hfirst, hsecond]
      exact ⟨(out.1, _ :: out.2), hout, rfl, rfl⟩

theorem powFunction_eq_some (F : FuncInfor) (input : Bytes) (mem₀ : Mem) (u₀ : Uninitialised) :
    ∃ out : Bytes, out.length = outputLen ∧ ∀ mem u, powFunction F input mem u = some out := by
  have hpair (mem : Mem) (u : Uninitialised) : ∃ out : Bytes, out.length = outputLen ∧
      powFunction F input mem₀ u₀ = some out ∧ powFunction F input mem u = some out := by
    have hinit := initWorkMemory_agree F input mem₀ mem u₀ u
    obtain ⟨hc, hlen, hmem⟩ := modifyWorkMemory_rel F (workMemorySize >>> 11) hinit u₀ u
    have hnum : (workMemorySize >>> 5 - 1) <<< 5 ≤ workMemorySize := by decide
    have hfinal : AgreeBelow ((workMemorySize >>> 5 - 1) <<< 5) _ _ :=
      fun i hi => hmem i (lt_of_lt_of_le hi hnum)
    simp only [powFunction, calculateFinalResult, calculateFinalResultLog, ← hc]
    rw [take_of_length_le (le_of_eq hlen), overwrite_all (u₀.output_length.trans hlen.symm),
      overwrite_all (u.output_length.trans hlen.symm)]
    obtain ⟨out, hout, hfirst, hsecond⟩ := finalRounds_rel F hfinal _ (by decide)
      (le_of_eq (Nat.sub_zero _)) hlen u₀.resultRrs_length u.resultRrs_length
    exact ⟨out.1, hout, congrArg (Option.map _) hfirst, congrArg (Option.map _) hsecond⟩
  obtain ⟨out, hlen, hout, -⟩ := hpair mem₀ u₀
  refine ⟨out, hlen, fun mem u => ?_⟩
  obtain ⟨out', -, h₀, h⟩ := hpair mem u
  rw [h, ← h₀, hout]

/-- The output of the proof of work is a function of the input. It depends neither on the memory
that was allocated nor on the locals that are not initialised. -/
theorem powFunction_output_determined (F : FuncInfor) (input : Bytes) (mem mem' : Mem)
    (u u' : Uninitialised) :
    ∃ out : Bytes, out.length = outputLen ∧ powFunction F input mem u = some out ∧
      powFunction F input mem' u' = some out := by
  obtain ⟨out, hlen, hout⟩ := powFunction_eq_some F input mem u
  exact ⟨out, hlen, hout mem u, hout mem' u'⟩

end Utsuite.HelloPowDeterminism
