import Utsuite.HelloPowDeterminism
import Mathlib.Data.List.GetD
import Mathlib.Data.Set.Finite.List

namespace Utsuite.HelloPowRotation

open ByteWords HelloPow HelloPowDeterminism List

def bitAt (bs : Bytes) (i : Nat) : Bool := (bs.getD (i / 8) 0).toNat.testBit (7 - i % 8)

theorem bitAt_add (bs : Bytes) (j : Nat) (hb : b < 8) :
    bitAt bs (8 * j + b) = (bs.getD j 0).toNat.testBit (7 - b) := by
  rw [bitAt, show (8 * j + b) / 8 = j by omega, show (8 * j + b) % 8 = b by omega]

theorem eq_of_bitAt (hlen : xs.length = ys.length)
    (h : ∀ i < 8 * xs.length, bitAt xs i = bitAt ys i) : xs = ys := by
  apply ext_getElem hlen
  intro j hj hj'
  apply UInt8.toNat_inj.mp
  apply Nat.eq_of_testBit_eq
  intro k
  by_cases hk : k < 8
  · have hbit := h (8 * j + (7 - k)) (by omega)
    rw [bitAt_add _ _ (by omega), bitAt_add _ _ (by omega), getD_eq_getElem _ _ hj,
      getD_eq_getElem _ _ hj', show 7 - (7 - k) = k by omega] at hbit
    exact hbit
  · have hpow : 2 ^ 8 ≤ 2 ^ k := Nat.pow_le_pow_right (by decide) (by omega)
    rw [Nat.testBit_lt_two_pow (xs[j].toNat_lt.trans_le hpow),
      Nat.testBit_lt_two_pow (ys[j].toNat_lt.trans_le hpow)]

theorem mod_eight (q n : Nat) (hc : c < 8) : (8 * q + c) % (8 * n) = 8 * (q % n) + c := by
  rw [Nat.mod_mul, Nat.mul_add_mod, Nat.mod_eq_of_lt hc, show (8 * q + c) / 8 = q by omega,
    Nat.add_comm]

theorem testBit_glued (r l : UInt8) (hs : s.toNat < 8) (hb : b < 8) :
    ((r.toUInt32 >>> s ||| l.toUInt32 <<< (8 - s)).toUInt8).toNat.testBit (7 - b) =
      if s.toNat ≤ b then r.toNat.testBit (7 - (b - s.toNat))
      else l.toNat.testBit (7 - (8 + b - s.toNat)) := by
  have hsub : (8 - s).toNat = 8 - s.toNat :=
    UInt32.toNat_sub_of_le _ _ (UInt32.le_iff_toNat_le.mpr (by simpa using hs.le))
  have hr : ∀ k, 8 ≤ k → r.toNat.testBit k = false := fun k hk =>
    Nat.testBit_lt_two_pow (r.toNat_lt.trans_le (Nat.pow_le_pow_right (by decide) hk))
  have hl : l.toNat <<< (8 - s.toNat) < 2 ^ 32 := by
    rw [Nat.shiftLeft_eq]
    calc l.toNat * 2 ^ (8 - s.toNat) < 2 ^ 8 * 2 ^ 8 :=
          Nat.mul_lt_mul_of_lt_of_le l.toNat_lt (Nat.pow_le_pow_right (by decide) (by omega)) (by decide)
      _ < 2 ^ 32 := by decide
  simp only [UInt32.toNat_toUInt8, UInt32.toNat_or, UInt32.toNat_shiftRight, UInt32.toNat_shiftLeft,
    UInt8.toNat_toUInt32, hsub]
  rw [Nat.mod_eq_of_lt (by omega : s.toNat < 32), Nat.mod_eq_of_lt (by omega : 8 - s.toNat < 32),
    Nat.mod_eq_of_lt hl, Nat.testBit_mod_two_pow, Nat.testBit_or, Nat.testBit_shiftRight,
    Nat.testBit_shiftLeft, decide_eq_true (by omega : 7 - b < 8), Bool.true_and]
  split
  · rw [decide_eq_false (by omega : ¬(7 - b ≥ 8 - s.toNat)), Bool.false_and, Bool.or_false,
      show s.toNat + (7 - b) = 7 - (b - s.toNat) by omega]
  · rw [hr _ (by omega), Bool.false_or, decide_eq_true (by omega : 7 - b ≥ 8 - s.toNat), Bool.true_and,
      show 7 - b - (8 - s.toNat) = 7 - (8 + b - s.toNat) by omega]

theorem bitAt_rotated (hlen : input.length ≤ 2 ^ 31) (hbits : bits.toNat < 8 * input.length)
    (hi : i < 8 * input.length) :
    bitAt (rotated input bits) i =
      bitAt input ((i + (8 * input.length - bits.toNat)) % (8 * input.length)) := by
  obtain ⟨j, b, hb, rfl⟩ : ∃ j b, b < 8 ∧ 8 * j + b = i := ⟨i / 8, i % 8, by omega, by omega⟩
  have hshift : (bits >>> 3).toNat = bits.toNat / 8 := by
    simp [UInt32.toNat_shiftRight, Nat.shiftRight_eq_div_pow]
  have hs : (bits &&& 0x7).toNat = bits.toNat % 8 := Nat.and_two_pow_sub_one_eq_mod bits.toNat 3
  generalize hn : input.length = n at *
  have hn32 : (UInt32.ofNat n).toNat = n := UInt32.toNat_ofNat_of_lt' (show n < 2 ^ 32 by omega)
  have hj32 : (UInt32.ofNat j).toNat = j := UInt32.toNat_ofNat_of_lt' (show j < 2 ^ 32 by omega)
  have hr : (UInt32.ofNat n - bits >>> 3).toNat = n - bits.toNat / 8 := by
    rw [UInt32.toNat_sub_of_le _ _ (UInt32.le_iff_toNat_le.mpr (by omega)), hn32, hshift]
  have hr' : (UInt32.ofNat n - bits >>> 3 + UInt32.ofNat j).toNat = n - bits.toNat / 8 + j := by
    rw [UInt32.toNat_add, hr, hj32, Nat.mod_eq_of_lt (by omega)]
  have hl : ((UInt32.ofNat n - bits >>> 3 + UInt32.ofNat n - 1) % UInt32.ofNat n).toNat =
      (n - bits.toNat / 8 + n - 1) % n := by
    rw [UInt32.toNat_mod, UInt32.toNat_sub, UInt32.toNat_add, hr, hn32]
    congr 1
    change (2 ^ 32 - 1 + _) % 2 ^ 32 = _
    omega
  have hbyte : (rotated input bits).getD j 0 = ((input.getD ((n - bits.toNat / 8 + j) % n) 0).toUInt32 >>>
      (bits &&& 0x7) ||| (input.getD (((n - bits.toNat / 8 + n - 1) % n + j) % n) 0).toUInt32 <<<
        (8 - (bits &&& 0x7))).toUInt8 := by
    have hlt := Nat.mod_lt (n - bits.toNat / 8 + n - 1) (show n > 0 by omega)
    rw [getD_eq_getElem _ _ (by simp; omega)]
    simp only [rotated, hn, getElem_map, getElem_range, UInt32.toNat_mod, hn32, hr']
    rw [UInt32.toNat_add, hl, hj32, Nat.mod_eq_of_lt (show _ + j < 2 ^ 32 by omega)]
  rw [bitAt_add _ _ hb, hbyte, testBit_glued _ _ (by omega) hb, hs]
  split
  · rw [show 8 * j + b + (8 * n - bits.toNat) = 8 * (n - bits.toNat / 8 + j) + (b - bits.toNat % 8) by omega,
      mod_eight _ _ (by omega), bitAt_add _ _ (by omega)]
  · rw [Nat.mod_add_mod, show 8 * j + b + (8 * n - bits.toNat) =
        8 * (n - bits.toNat / 8 + j - 1) + (8 + b - bits.toNat % 8) by omega,
      mod_eight _ _ (by omega), bitAt_add _ _ (by omega),
      show n - bits.toNat / 8 + n - 1 + j = n - bits.toNat / 8 + j - 1 + n by omega, Nat.add_mod_right]

abbrev Block (len : Nat) := {bs : Bytes // bs.length = len}

variable {len : Nat}

def rotation (output : Bytes) (bits : UInt32) (input : Block len) : Block len :=
  ⟨(rrs input.1 output bits).take len, by rw [rrs_take input.2, rotated_length, input.2]⟩

theorem bitAt_rotation (hlen : len ≤ 2 ^ 31) {bits : UInt32} (hbits : bits.toNat < 8 * len)
    (output : Bytes) (input : Block len) {i : Nat} (hi : i < 8 * len) :
    bitAt (rotation output bits input).1 ((i + bits.toNat) % (8 * len)) = bitAt input.1 i := by
  obtain ⟨input, rfl⟩ := input
  have hval : (rotation output bits ⟨input, rfl⟩).1 = rotated input bits := rrs_take rfl
  rw [hval, bitAt_rotated hlen hbits (Nat.mod_lt _ (by omega)), Nat.mod_add_mod,
    show i + bits.toNat + (8 * input.length - bits.toNat) = i + 8 * input.length by omega,
    Nat.add_mod_right, Nat.mod_eq_of_lt hi]

theorem eq_of_rotated {x y : Block len} (k : Nat) (h : ∀ i < 8 * len,
    bitAt x.1 ((i + k) % (8 * len)) = bitAt y.1 ((i + k) % (8 * len))) : x = y := by
  apply Subtype.ext
  apply eq_of_bitAt (x.2.trans y.2.symm)
  intro i hi
  rw [x.2] at hi
  have hback := h ((i + (8 * len - k % (8 * len))) % (8 * len)) (Nat.mod_lt _ (by omega))
  have hk := Nat.mod_lt k (show 8 * len > 0 by omega)
  rwa [Nat.mod_add_mod, ← Nat.add_mod_mod, show i + (8 * len - k % (8 * len)) + k % (8 * len) =
    i + 8 * len by omega, Nat.add_mod_right, Nat.mod_eq_of_lt hi] at hback

/-- `rrs` rotates all strings of up to `2 ^ 31` bytes, and rotations add up. The bound is sharp,
since its indices of type `uint32_t` run up to twice the length. -/
theorem rrs_rotates (hlen : len ≤ 2 ^ 31) {bits : UInt32} (hbits : bits.toNat < 8 * len)
    (output : Bytes) :
    (∀ (input : Block len) (i : Nat), i < 8 * len →
      bitAt (rotation output bits input).1 ((i + bits.toNat) % (8 * len)) = bitAt input.1 i) ∧
    Function.Bijective (rotation output bits : Block len → Block len) ∧
    ∀ (b c : UInt32) (output' : Bytes), b.toNat < 8 * len →
      c.toNat = (bits.toNat + b.toNat) % (8 * len) → ∀ input : Block len,
        rotation output' b (rotation output bits input) = rotation output c input := by
  have hinj : Function.Injective (rotation output bits : Block len → Block len) := by
    intro x y hxy
    apply eq_of_rotated 0
    intro i hi
    rw [Nat.add_zero, Nat.mod_eq_of_lt hi, ← bitAt_rotation hlen hbits output x hi, hxy,
      bitAt_rotation hlen hbits output y hi]
  have : Finite UInt8 := .of_injective UInt8.toFin fun _ _ => UInt8.toFin_inj.mp
  have : Finite (Block len) := (finite_length_eq UInt8 len).to_subtype
  refine ⟨fun input i hi => bitAt_rotation hlen hbits output input hi,
    ⟨hinj, Finite.surjective_of_injective hinj⟩, ?_⟩
  intro b c output' hb hc input
  apply eq_of_rotated (bits.toNat + b.toNat)
  intro i hi
  have hc' : c.toNat < 8 * len := hc ▸ Nat.mod_lt _ (by omega)
  have htwo := bitAt_rotation hlen hb output' (rotation output bits input)
    (Nat.mod_lt (i + bits.toNat) (by omega))
  rw [Nat.mod_add_mod, Nat.add_assoc] at htwo
  rw [htwo, bitAt_rotation hlen hbits output input hi, ← bitAt_rotation hlen hc' output input hi, hc,
    Nat.add_mod_mod]

def fourBytes : Block 4 := ⟨[0x12, 0x34, 0x56, 0x78], rfl⟩

theorem rrs_rotates_fourBytes :
    (rotation [7] 13 fourBytes).1 = [0xb3, 0xc0, 0x91, 0xa2] ∧
      (∀ i < 32, bitAt (rotation [7] 13 fourBytes).1 ((i + 13) % 32) = bitAt fourBytes.1 i) ∧
      Function.Bijective (rotation [7] 13 : Block 4 → Block 4) ∧
      rotation [] 30 (rotation [7] 13 fourBytes) = rotation [7] 11 fourBytes := by
  have hlen : 4 ≤ 2 ^ 31 := by decide
  have hshift : (13 : UInt32).toNat < 8 * 4 := by decide
  obtain ⟨hbits, hbijective, hcompose⟩ := rrs_rotates hlen hshift [7]
  exact ⟨by decide +kernel, hbits fourBytes, hbijective,
    hcompose 30 11 [] (by decide) (by decide) fourBytes⟩

/-- One byte beyond the bound, the running index wraps before it has reached the end of the string.
-/
theorem long_string_not_kept : ∃ input : Bytes, input.length = 2 ^ 31 + 1 ∧
    rotated input 0 ≠ input := by
  let input : Bytes := 1 :: replicate (2 ^ 31) 0
  have hlength : input.length = 2 ^ 31 + 1 := by rw [length_cons, length_replicate]
  have hglued : ∀ l : UInt8, ((1 : UInt8).toUInt32 >>> 0 ||| l.toUInt32 <<< (8 - 0)).toUInt8 = 1 :=
    byte_cases (by decide +kernel)
  have hwrap : ((UInt32.ofNat (2 ^ 31 + 1) - (0 : UInt32) >>> 3 + UInt32.ofNat (2 ^ 31 - 1)) %
      UInt32.ofNat (2 ^ 31 + 1)).toNat = 0 := by decide
  refine ⟨input, hlength, fun h => ?_⟩
  have hbyte : (rotated input 0).getD (2 ^ 31 - 1) 0 = 1 := by
    rw [getD_eq_getElem _ _ (by rw [rotated_length, hlength]; decide)]
    simp only [rotated, hlength, getElem_map, getElem_range, hwrap]
    exact hglued _
  rw [h, getD_eq_getElem?_getD, show 2 ^ 31 - 1 = 2 ^ 31 - 2 + 1 from rfl, getElem?_cons_succ,
    getElem?_replicate, if_pos (by decide)] at hbyte
  exact absurd hbyte (by decide)

end Utsuite.HelloPowRotation
