import Utsuite.ByteWords

namespace Utsuite.ReflectedCrc

open ByteWords List Function

variable {w : Nat} (poly : BitVec w)

/-- One bit of the division. The bit that leaves decides whether the polynomial is subtracted. -/
def bitStep (r : BitVec w) : BitVec w := if r.getLsbD 0 then (r >>> 1) ^^^ poly else r >>> 1

def byteStep (r : BitVec w) (b : UInt8) : BitVec w := (bitStep poly)^[8] (r ^^^ b.toBitVec.setWidth w)

def crc (data : Bytes) : BitVec w := ~~~data.foldl (byteStep poly) (BitVec.allOnes w)

theorem bitStep_xor (x y : BitVec w) : bitStep poly (x ^^^ y) = bitStep poly x ^^^ bitStep poly y := by
  simp only [bitStep, BitVec.getLsbD_xor, BitVec.ushiftRight_xor_distrib]
  cases x.getLsbD 0 <;> cases y.getLsbD 0
  · rfl
  · simp only [Bool.false_xor, if_true, Bool.false_eq_true, if_false, BitVec.xor_assoc]
  · simp only [Bool.true_xor, Bool.not_false, if_true, Bool.false_eq_true, if_false, BitVec.xor_assoc,
      BitVec.xor_comm poly]
  · have hcancel : (x >>> 1 ^^^ poly) ^^^ (y >>> 1 ^^^ poly) = x >>> 1 ^^^ y >>> 1 := by
      rw [BitVec.xor_comm (y >>> 1), BitVec.xor_assoc, ← BitVec.xor_assoc poly, BitVec.xor_self,
        BitVec.zero_xor]
    simp only [Bool.true_xor, Bool.not_true, Bool.false_eq_true, if_false, if_true, hcancel]

theorem iterate_xor (n : Nat) (x y : BitVec w) :
    (bitStep poly)^[n] (x ^^^ y) = (bitStep poly)^[n] x ^^^ (bitStep poly)^[n] y := by
  induction n generalizing x y with
  | zero => rfl
  | succ n ih => rw [iterate_succ_apply, iterate_succ_apply,
      iterate_succ_apply, bitStep_xor, ih]

theorem iterate_eq_shift (h : ∀ i < n, r.getLsbD i = false) : (bitStep poly)^[n] r = r >>> n := by
  induction n with
  | zero => simp
  | succ n ih =>
    have hlow : (r >>> n).getLsbD 0 = false := by
      rw [BitVec.getLsbD_ushiftRight, add_zero]
      exact h n (Nat.lt_succ_self n)
    rw [iterate_succ_apply', ih (fun i hi => h i (Nat.lt_succ_of_lt hi)), bitStep, hlow,
      if_neg Bool.false_ne_true, ← BitVec.shiftRight_add]

theorem low_xor_high (r : BitVec w) (n : Nat) : r = (r &&& BitVec.ofNat w (2 ^ n - 1)) ^^^ (r >>> n <<< n) := by
  apply BitVec.eq_of_getLsbD_eq
  intro i hi
  simp only [BitVec.getLsbD_xor, BitVec.getLsbD_and, BitVec.getLsbD_ofNat, BitVec.getLsbD_shiftLeft,
    BitVec.getLsbD_ushiftRight, Nat.testBit_two_pow_sub_one, hi, decide_true, Bool.true_and]
  by_cases hn : i < n
  · simp [hn]
  · simp [hn, Nat.add_sub_cancel' (Nat.le_of_not_lt hn)]

theorem iterate_eight (r : BitVec w) :
    (bitStep poly)^[8] r = (r >>> 8) ^^^ (bitStep poly)^[8] (r &&& 0xff) := by
  have hhigh : (bitStep poly)^[8] (r >>> 8 <<< 8) = r >>> 8 := by
    rw [iterate_eq_shift poly (by intro i hi; simp [hi])]
    apply BitVec.eq_of_getLsbD_eq
    intro i hi
    simp only [BitVec.getLsbD_ushiftRight, BitVec.getLsbD_shiftLeft]
    by_cases hw : 8 + i < w
    · simp [hw]
    · simp [hw, BitVec.getLsbD_of_ge r (8 + i) (by omega)]
  conv_lhs => rw [low_xor_high r 8, iterate_xor, hhigh, BitVec.xor_comm]
  rfl

theorem byteStep_eq_table (r : BitVec w) (b : UInt8) :
    byteStep poly r b = (r >>> 8) ^^^ (bitStep poly)^[8] ((r ^^^ b.toBitVec.setWidth w) &&& 0xff) := by
  have hb : b.toBitVec.setWidth w >>> 8 = 0#w := by
    apply BitVec.eq_of_getLsbD_eq
    intro i hi
    rw [BitVec.getLsbD_ushiftRight, BitVec.getLsbD_setWidth, BitVec.getLsbD_of_ge _ (8 + i) (by omega),
      Bool.and_false, BitVec.getLsbD_zero]
  rw [byteStep, iterate_eight, BitVec.ushiftRight_xor_distrib, hb, BitVec.xor_zero]

def word (w : Nat) (data : Bytes) : BitVec w := BitVec.ofNat w (leValue data)

theorem word_cons (b : UInt8) (data : Bytes) :
    word w (b :: data) = b.toBitVec.setWidth w ^^^ (word w data <<< 8) := by
  apply BitVec.eq_of_getLsbD_eq
  intro i hi
  have hbit := Nat.testBit_two_pow_mul_add (leValue data) b.toNat_lt i
  simp only [word, leValue, BitVec.getLsbD_ofNat, BitVec.getLsbD_xor, BitVec.getLsbD_setWidth,
    BitVec.getLsbD_shiftLeft, hi, decide_true, Bool.true_and]
  rw [Nat.add_comm, show 256 = 2 ^ 8 from rfl, hbit]
  by_cases h8 : i < 8
  · simp [h8, BitVec.getLsbD]
  · simp [h8, BitVec.getLsbD_of_ge b.toBitVec i (Nat.le_of_not_lt h8), Nat.lt_of_le_of_lt (Nat.sub_le i 8) hi]

theorem word_inj (hlen : data.length = data'.length) (hw : 8 * data.length ≤ w)
    (h : word w data = word w data') : data = data' := by
  have hbound : 256 ^ data.length ≤ 2 ^ w := by
    rw [show 256 = 2 ^ 8 from rfl, ← pow_mul]
    exact Nat.pow_le_pow_right (by decide) hw
  have hv := congrArg BitVec.toNat h
  simp only [word, BitVec.toNat_ofNat] at hv
  rw [Nat.mod_eq_of_lt (lt_of_lt_of_le (leValue_lt data) hbound),
    Nat.mod_eq_of_lt (lt_of_lt_of_le (leValue_lt data') (hlen ▸ hbound))] at hv
  rw [← leBytes_leValue data, ← leBytes_leValue data', hlen, hv]

theorem foldl_byteStep (data : Bytes) (hw : 8 * data.length ≤ w) (r : BitVec w) :
    data.foldl (byteStep poly) r = (bitStep poly)^[8 * data.length] (r ^^^ word w data) := by
  induction data generalizing r with
  | nil => simp [word, leValue]
  | cons b data ih =>
    rw [length_cons] at hw ⊢
    have hback : (bitStep poly)^[8] (word w data <<< 8) = word w data := by
      rw [iterate_eq_shift poly (by intro i hi; simp [hi])]
      apply BitVec.eq_of_toNat_eq
      have hlt := leValue_lt data
      have hpow : 2 ^ 8 * 256 ^ data.length ≤ 2 ^ w := by
        rw [show 256 = 2 ^ 8 from rfl, ← pow_mul, ← pow_add]
        exact Nat.pow_le_pow_right (by decide) (by omega)
      simp only [word, BitVec.toNat_ushiftRight, BitVec.toNat_shiftLeft, BitVec.toNat_ofNat,
        Nat.shiftLeft_eq, Nat.shiftRight_eq_div_pow]
      rw [Nat.mod_eq_of_lt (a := leValue data) (by omega), Nat.mod_eq_of_lt (by omega)]
      omega
    rw [foldl_cons, ih (by omega), word_cons, ← BitVec.xor_assoc, Nat.mul_succ,
      iterate_add_apply, iterate_xor poly 8, hback]
    rfl

section

variable {poly} (hpoly : poly.msb = true)
include hpoly

theorem bitStep_eq_zero (h : bitStep poly r = 0#w) : r = 0#w := by
  by_cases hlow : r.getLsbD 0 = true
  · -- the polynomial's leading coefficient stands where the shift leaves a zero
    rw [bitStep, if_pos hlow] at h
    have hmsb := congrArg BitVec.msb h
    simp [hpoly] at hmsb
  · rw [bitStep, if_neg hlow] at h
    apply BitVec.eq_of_getLsbD_eq
    intro i hi
    cases i with
    | zero => simpa using hlow
    | succ i =>
      have hbit := congrArg (BitVec.getLsbD · i) h
      simpa [add_comm] using hbit

theorem iterate_eq_zero (h : (bitStep poly)^[n] r = 0#w) : r = 0#w := by
  induction n with
  | zero => exact h
  | succ n ih =>
    rw [iterate_succ_apply'] at h
    exact ih (bitStep_eq_zero hpoly h)

theorem crc_inj (hlen : data.length = data'.length) (hw : 8 * data.length ≤ w)
    (h : crc poly data = crc poly data') : data = data' := by
  have hfold := BitVec.not_inj.mp h
  rw [foldl_byteStep poly data hw, foldl_byteStep poly data' (hlen ▸ hw), ← hlen] at hfold
  have hzero : (bitStep poly)^[8 * data.length] (word w data ^^^ word w data') = 0#w := by
    rw [iterate_xor] at hfold ⊢
    rw [iterate_xor] at hfold
    rw [(BitVec.xor_right_inj _).mp hfold, BitVec.xor_self]
  exact word_inj hlen hw (BitVec.xor_eq_zero_iff.mp (iterate_eq_zero hpoly hzero))

end

end Utsuite.ReflectedCrc
