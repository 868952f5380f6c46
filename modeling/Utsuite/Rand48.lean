import Utsuite.Sse

namespace Utsuite.Rand48

open ByteWords Sse

structure MyRand48Data where
  x : UInt64
  c : UInt16
  a : UInt64
  deriving DecidableEq

def mySeed48R (seedval : UInt64) : MyRand48Data :=
  { x := seedval &&& 0xffffffffffff, a := 0x5deece66d, c := 0xb }

def myRand48R (buffer : MyRand48Data) : UInt64 × MyRand48Data :=
  let result := (buffer.x * buffer.a + buffer.c.toUInt64) &&& 0xffffffffffff
  (result, { buffer with x := result })

def myRand64R (buffer : MyRand48Data) : UInt64 × MyRand48Data :=
  let X := (buffer.x * buffer.a + buffer.c.toUInt64) &&& 0xffffffffffff
  let x := (X * buffer.a + buffer.c.toUInt64) &&& 0xffffffffffff
  (X ^^^ x <<< 16, { buffer with x := x })

structure Vrand48Data where
  vxl : M128i
  vxh : M128i
  val : M128i
  vah : M128i
  vc : M128i
  deriving DecidableEq

def vseed48 (s0 s1 : UInt64) : Vrand48Data where
  vc := mmSetEpi32 0 0xb 0 0xb
  vah := mmSetEpi32 0 0x5 0 0x5
  val := mmSetEpi32 0 0xdeece66d 0 0xdeece66d
  vxl := mmSetEpi32 0 s1.toUInt32 0 s0.toUInt32
  vxh := mmSetEpi32 0 (s1 >>> 32).toUInt32 0 (s0 >>> 32).toUInt32

def vrand48 (buffer : Vrand48Data) : M128i × Vrand48Data :=
  let vmask := mmSetEpi32 0x0000FFFF 0xFFFFFFFF 0x0000FFFF 0xFFFFFFFF
  let vmask2 := mmSetEpi32 0 0xFFFFFFFF 0 0xFFFFFFFF
  let vrl := mmMulEpu32 buffer.val buffer.vxl
  let vrh := mmAddEpi64 (mmMulEpu32 buffer.val buffer.vxh) (mmMulEpu32 buffer.vah buffer.vxl)
  let vresult := mmAndSi128 (mmAddEpi64 (mmAddEpi64 vrl (mmSlliEpi64 vrh 32)) buffer.vc) vmask
  (vresult, { buffer with
    vxl := mmAndSi128 vresult vmask2
    vxh := mmAndSi128 (mmSrliEpi64 vresult 32) vmask2 })

def vrand64 (buffer0 buffer1 : Vrand48Data) : Bytes × Vrand48Data × Vrand48Data :=
  let (vresult0, buffer0) := vrand48 buffer0
  let (vresult1, buffer1) := vrand48 buffer1
  let (vresult2, buffer0) := vrand48 buffer0
  let (vresult3, buffer1) := vrand48 buffer1
  let vresult0 := mmXorSi128 vresult0 (mmSlliEpi64 vresult2 16)
  let vresult1 := mmXorSi128 vresult1 (mmSlliEpi64 vresult3 16)
  (mmStoreSi128 vresult0 ++ mmStoreSi128 vresult1, buffer0, buffer1)

def scalarRound (r0 r1 r2 r3 : MyRand48Data) :
    Bytes × MyRand48Data × MyRand48Data × MyRand48Data × MyRand48Data :=
  let (n0, r0) := myRand64R r0
  let (n1, r1) := myRand64R r1
  let (n2, r2) := myRand64R r2
  let (n3, r3) := myRand64R r3
  (leBytes 8 n0.toNat ++ leBytes 8 n1.toNat ++ leBytes 8 n2.toNat ++ leBytes 8 n3.toNat, r0, r1, r2, r3)

def vectorBlocks : Nat → Vrand48Data → Vrand48Data → List Bytes
  | 0, _, _ => []
  | n + 1, v0, v1 =>
    let (b, v0, v1) := vrand64 v0 v1
    b :: vectorBlocks n v0 v1

def scalarBlocks : Nat → MyRand48Data → MyRand48Data → MyRand48Data → MyRand48Data → List Bytes
  | 0, _, _, _, _ => []
  | n + 1, r0, r1, r2, r3 =>
    let (b, r0, r1, r2, r3) := scalarRound r0 r1 r2 r3
    b :: scalarBlocks n r0 r1 r2 r3

def advance (x : UInt64) : UInt64 := (x * 0x5deece66d + 0xb) &&& 0xffffffffffff

def laneAdvance (xl xh : UInt64) : UInt64 :=
  (mulLow 0xdeece66d xl + (mulLow 0xdeece66d xh + mulLow 0x5 xl) <<< 32 + 0xb) &&& 0xffffffffffff

/-- The two halves of a state, modulo `2 ^ 48` because the upper half of a seed is not masked. -/
def Halves (xl xh x : UInt64) : Prop :=
  xl.toNat < 2 ^ 32 ∧ xh.toNat < 2 ^ 32 ∧ x.toNat < 2 ^ 48 ∧
    (xl.toNat + 2 ^ 32 * xh.toNat) % 2 ^ 48 = x.toNat

theorem toNat_mask48 (x : UInt64) : (x &&& 0xffffffffffff).toNat = x.toNat % 2 ^ 48 := by
  rw [UInt64.toNat_and]
  exact Nat.and_two_pow_sub_one_eq_mod x.toNat 48

theorem toNat_advance (x : UInt64) :
    (advance x).toNat = (x.toNat * 0x5deece66d + 0xb) % 2 ^ 48 := by
  rw [advance, toNat_mask48, UInt64.toNat_add, UInt64.toNat_mul]
  simp only [UInt64.reduceToNat]
  omega

theorem laneAdvance_eq (h : Halves xl xh x) : laneAdvance xl xh = advance x := by
  obtain ⟨hl, hh, hx, hmod⟩ := h
  apply UInt64.toNat_inj.mp
  rw [toNat_advance, laneAdvance, toNat_mask48, UInt64.toNat_add, UInt64.toNat_add,
    UInt64.toNat_shiftLeft, UInt64.toNat_add, toNat_mulLow, toNat_mulLow, toNat_mulLow,
    Nat.shiftLeft_eq, Nat.mod_eq_of_lt hl, Nat.mod_eq_of_lt hh]
  simp only [UInt64.reduceToNat, Nat.reduceMod, Nat.reducePow] at *
  omega

theorem advance_lt (x : UInt64) : (advance x).toNat < 2 ^ 48 := by
  rw [toNat_advance]
  exact Nat.mod_lt _ (by decide)

theorem halves_seed (s : UInt64) :
    Halves (word64 0 s.toUInt32) (word64 0 (s >>> 32).toUInt32) (s &&& 0xffffffffffff) := by
  have hs := s.toNat_lt
  refine ⟨?_, ?_, ?_, ?_⟩
  · rw [toNat_word64_zero]
    exact UInt32.toNat_lt _
  · rw [toNat_word64_zero]
    exact UInt32.toNat_lt _
  · rw [toNat_mask48]
    exact Nat.mod_lt _ (by decide)
  · rw [toNat_word64_zero, toNat_word64_zero, toNat_mask48, UInt64.toNat_toUInt32,
      UInt64.toNat_toUInt32, UInt64.toNat_shiftRight, Nat.shiftRight_eq_div_pow]
    simp only [UInt64.reduceToNat, Nat.reduceMod, Nat.reducePow] at *
    omega

theorem halves_split (hx : x.toNat < 2 ^ 48) :
    Halves (x &&& 0xFFFFFFFF) (x >>> 32 &&& 0xFFFFFFFF) x := by
  have hr : (x >>> 32 &&& 0xFFFFFFFF).toNat = x.toNat / 2 ^ 32 := by
    rw [toNat_low, UInt64.toNat_shiftRight, Nat.shiftRight_eq_div_pow]
    simp only [UInt64.reduceToNat, Nat.reduceMod]
    omega
  refine ⟨?_, ?_, hx, ?_⟩
  · rw [toNat_low]
    exact Nat.mod_lt _ (by decide)
  · rw [hr]
    omega
  · rw [hr, toNat_low]
    omega

structure Lanes (v : Vrand48Data) (x0 x1 : UInt64) : Prop where
  vc : v.vc = ⟨0xb, 0xb⟩
  vah : v.vah = ⟨0x5, 0x5⟩
  val : v.val = ⟨0xdeece66d, 0xdeece66d⟩
  lane0 : Halves v.vxl.lane0 v.vxh.lane0 x0
  lane1 : Halves v.vxl.lane1 v.vxh.lane1 x1

theorem lanes_vseed48 (s0 s1 : UInt64) : Lanes (vseed48 s0 s1) (mySeed48R s0).x (mySeed48R s1).x := by
  have hc : mmSetEpi32 0 0xb 0 0xb = ⟨0xb, 0xb⟩ := by decide
  have hah : mmSetEpi32 0 0x5 0 0x5 = ⟨0x5, 0x5⟩ := by decide
  have hal : mmSetEpi32 0 0xdeece66d 0 0xdeece66d = ⟨0xdeece66d, 0xdeece66d⟩ := by decide
  exact ⟨hc, hah, hal, halves_seed s0, halves_seed s1⟩

theorem vrand48_result (v : Vrand48Data) (h : Lanes v x0 x1) :
    (vrand48 v).1 = ⟨advance x0, advance x1⟩ := by
  have hmask : mmSetEpi32 0x0000FFFF 0xFFFFFFFF 0x0000FFFF 0xFFFFFFFF =
      ⟨0xffffffffffff, 0xffffffffffff⟩ := by decide
  rw [← laneAdvance_eq h.lane0, ← laneAdvance_eq h.lane1]
  simp only [vrand48, hmask, h.vc, h.vah, h.val, mmAndSi128, mmAddEpi64, mmMulEpu32, mmSlliEpi64,
    M128i.map₂, laneAdvance]

/-- A step of the vector generator is a step in both lanes, since the mask drops every carry above
bit 48. -/
theorem lanes_vrand48 (v : Vrand48Data) (h : Lanes v x0 x1) :
    Lanes (vrand48 v).2 (advance x0) (advance x1) := by
  have hr := vrand48_result v h
  have hmask : mmSetEpi32 0 0xFFFFFFFF 0 0xFFFFFFFF = ⟨0xFFFFFFFF, 0xFFFFFFFF⟩ := by decide
  have hl : (vrand48 v).2.vxl = mmAndSi128 (vrand48 v).1 (mmSetEpi32 0 0xFFFFFFFF 0 0xFFFFFFFF) := rfl
  have hh : (vrand48 v).2.vxh =
      mmAndSi128 (mmSrliEpi64 (vrand48 v).1 32) (mmSetEpi32 0 0xFFFFFFFF 0 0xFFFFFFFF) := rfl
  rw [hr, hmask] at hl hh
  refine ⟨h.vc, h.vah, h.val, ?_, ?_⟩
  · rw [hl, hh]
    exact halves_split (advance_lt x0)
  · rw [hl, hh]
    exact halves_split (advance_lt x1)

structure Scalar (r : MyRand48Data) (x : UInt64) : Prop where
  x : r.x = x
  c : r.c = 0xb
  a : r.a = 0x5deece66d

theorem scalar_mySeed48R (s : UInt64) : Scalar (mySeed48R s) (mySeed48R s).x := ⟨rfl, rfl, rfl⟩

theorem myRand64R_eq (h : Scalar r x) :
    (myRand64R r).1 = advance x ^^^ advance (advance x) <<< 16 ∧
      Scalar (myRand64R r).2 (advance (advance x)) := by
  obtain ⟨rfl, hc, ha⟩ := h
  have h1 : (r.x * r.a + r.c.toUInt64) &&& 0xffffffffffff = advance r.x := by
    rw [hc, ha]
    rfl
  have h2 : (advance r.x * r.a + r.c.toUInt64) &&& 0xffffffffffff = advance (advance r.x) := by
    rw [hc, ha]
    rfl
  refine ⟨?_, ?_, hc, ha⟩
  · simp only [myRand64R, h1, h2]
  · simp only [myRand64R, h1, h2]

theorem vrand64_eq_scalarRound (h0 : Lanes v0 x0 x1) (h1 : Lanes v1 x2 x3) (s0 : Scalar r0 x0)
    (s1 : Scalar r1 x1) (s2 : Scalar r2 x2) (s3 : Scalar r3 x3) :
    (vrand64 v0 v1).1 = (scalarRound r0 r1 r2 r3).1 := by
  have f0 := vrand48_result v0 h0
  have f1 := vrand48_result v1 h1
  have g0 := vrand48_result _ (lanes_vrand48 v0 h0)
  have g1 := vrand48_result _ (lanes_vrand48 v1 h1)
  simp only [vrand64, scalarRound, f0, f1, g0, g1, (myRand64R_eq s0).1, (myRand64R_eq s1).1,
    (myRand64R_eq s2).1, (myRand64R_eq s3).1, mmStoreSi128, mmXorSi128, mmSlliEpi64, M128i.map₂,
    List.append_assoc]

theorem blocks_agree (n : Nat) (h0 : Lanes v0 x0 x1) (h1 : Lanes v1 x2 x3) (s0 : Scalar r0 x0)
    (s1 : Scalar r1 x1) (s2 : Scalar r2 x2) (s3 : Scalar r3 x3) :
    vectorBlocks n v0 v1 = scalarBlocks n r0 r1 r2 r3 := by
  induction n generalizing v0 v1 r0 r1 r2 r3 x0 x1 x2 x3 with
  | zero => rfl
  | succ n ih =>
    have hb := vrand64_eq_scalarRound h0 h1 s0 s1 s2 s3
    have hrest := ih (lanes_vrand48 _ (lanes_vrand48 v0 h0)) (lanes_vrand48 _ (lanes_vrand48 v1 h1))
      (myRand64R_eq s0).2 (myRand64R_eq s1).2 (myRand64R_eq s2).2 (myRand64R_eq s3).2
    rw [vectorBlocks, scalarBlocks]
    exact congrArg₂ List.cons hb hrest

/-- From any four seeds the vector generator gives the blocks of four scalar ones, also where a seed
has bits above the 48th. -/
theorem vector_generator_eq_scalar (s0 s1 s2 s3 : UInt64) (n : Nat) :
    vectorBlocks n (vseed48 s0 s1) (vseed48 s2 s3) =
      scalarBlocks n (mySeed48R s0) (mySeed48R s1) (mySeed48R s2) (mySeed48R s3) :=
  blocks_agree n (lanes_vseed48 s0 s1) (lanes_vseed48 s2 s3) (scalar_mySeed48R s0)
    (scalar_mySeed48R s1) (scalar_mySeed48R s2) (scalar_mySeed48R s3)

end Utsuite.Rand48
