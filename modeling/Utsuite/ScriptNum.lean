import Utsuite.Script

namespace Utsuite.ScriptNum

open ByteWords List
open Script (nonMinimal magnitude)

def orBytes : Bytes → Nat → BitVec 64 → BitVec 64
  | [], _, result => result
  | b :: vch, i, result => orBytes vch (i + 1) (result ||| b.toBitVec.setWidth 64 <<< (8 * i))

def setVch (vch : Bytes) : BitVec 64 :=
  match vch.getLast? with
  | none => 0
  | some last =>
    let result := orBytes vch 0 0
    if last &&& 0x80 ≠ 0 then -(result &&& ~~~(0x80#64 <<< (8 * (vch.length - 1)))) else result

def scriptNum (vch : Bytes) (fRequireMinimal : Bool) (nMaxNumSize : Nat) : Option (BitVec 64) :=
  if vch.length > nMaxNumSize then none
  else if fRequireMinimal ∧ vch.length > 0 ∧ nonMinimal vch then none
  else some (setVch vch)

def pushBytes : Nat → BitVec 64 → Bytes
  | 0, _ => []
  | rounds + 1, absvalue =>
    if absvalue = 0 then []
    else ⟨(absvalue &&& 0xff).setWidth 8⟩ :: pushBytes rounds (absvalue >>> 8)

def serialize (value : BitVec 64) : Bytes :=
  if value = 0 then []
  else
    let neg := value.msb
    let result := pushBytes 8 (if neg then -value else value)
    if result.getLastD 0 &&& 0x80 ≠ 0 then result ++ [if neg then 0x80 else 0]
    else if neg then result.dropLast ++ [result.getLastD 0 ||| 0x80]
    else result

theorem toNat_or_shift {result : BitVec 64} {b : UInt8} {i : Nat} (hi : i < 8)
    (hlt : result.toNat < 256 ^ i) :
    (result ||| b.toBitVec.setWidth 64 <<< (8 * i)).toNat = result.toNat + 256 ^ i * b.toNat := by
  have hb := b.toNat_lt
  have hpow : (256 : Nat) ^ i = 2 ^ (8 * i) := by
    rw [Nat.pow_mul]
  have hle : 256 ^ i * b.toNat < 2 ^ 64 := by
    calc 256 ^ i * b.toNat < 256 ^ i * 256 := by
          apply Nat.mul_lt_mul_of_pos_left hb
          exact Nat.pow_pos (by decide)
      _ = 256 ^ (i + 1) := rfl
      _ ≤ 256 ^ 8 := Nat.pow_le_pow_right (by decide) (by omega)
  rw [hpow] at hlt hle ⊢
  rw [BitVec.toNat_or, BitVec.toNat_shiftLeft, BitVec.toNat_setWidth, UInt8.toNat_toBitVec,
    Nat.mod_eq_of_lt (by omega : b.toNat < 2 ^ 64), Nat.shiftLeft_eq, Nat.mul_comm b.toNat,
    Nat.mod_eq_of_lt hle, Nat.or_comm, ← Nat.two_pow_add_eq_or_of_lt hlt, Nat.add_comm]

theorem orBytes_eq (vch : Bytes) {i : Nat} {result : BitVec 64} (hlen : i + vch.length ≤ 8)
    (hlt : result.toNat < 256 ^ i) :
    (orBytes vch i result).toNat = result.toNat + 256 ^ i * leValue vch := by
  induction vch generalizing i result with
  | nil => rfl
  | cons b vch ih =>
    rw [length_cons] at hlen
    have hstep := toNat_or_shift (b := b) (by omega : i < 8) hlt
    have hb := b.toNat_lt
    have hnext : result.toNat + 256 ^ i * b.toNat < 256 ^ (i + 1) := by
      have hmul : 256 ^ i * (b.toNat + 1) ≤ 256 ^ i * 256 := Nat.mul_le_mul_left _ (by omega)
      rw [mul_add, mul_one] at hmul
      rw [pow_succ]
      omega
    rw [orBytes, ih (by omega) (hstep ▸ hnext), hstep, leValue]
    ring

theorem orBytes_leValue (hlen : vch.length ≤ 8) :
    orBytes vch 0 0 = BitVec.ofNat 64 (leValue vch) := by
  apply BitVec.eq_of_toNat_eq
  have hlt := leValue_lt vch
  have hle : 256 ^ vch.length ≤ 256 ^ 8 := Nat.pow_le_pow_right (by decide) hlen
  rw [orBytes_eq vch (by omega) (by decide), BitVec.toNat_ofNat, Nat.mod_eq_of_lt (by omega)]
  simp

theorem magnitude_leValue (hlen : bs.length ≤ width) (hlast : ∀ b ∈ bs.getLast?, b ≠ 0) :
    magnitude width (leValue bs) = bs := by
  induction bs generalizing width with
  | nil => cases width <;> rfl
  | cons b bs ih =>
    obtain ⟨width, rfl⟩ : ∃ w, width = w + 1 := ⟨width - 1, by
      rw [length_cons] at hlen
      omega⟩
    have hb := b.toNat_lt
    have htail : magnitude width (leValue bs) = bs := by
      refine ih (Nat.le_of_succ_le_succ hlen) fun c hc => hlast c ?_
      rw [Option.mem_def] at hc ⊢
      rw [getLast?_cons, hc]
      rfl
    have hne : leValue (b :: bs) ≠ 0 := by
      intro hzero
      rw [leValue] at hzero
      have hrest : leValue bs = 0 := by omega
      rw [hrest] at htail
      obtain rfl : bs = [] := by
        rw [← htail]
        cases width <;> rfl
      have hb0 : (0 : UInt8).toNat = 0 := rfl
      exact hlast b rfl (UInt8.toNat_inj.mp (by omega))
    rw [magnitude, if_neg hne, leValue]
    have hdiv : (b.toNat + 256 * leValue bs) / 256 = leValue bs := by omega
    have hmod : .ofNat (b.toNat + 256 * leValue bs) = b := by
      apply UInt8.toNat_inj.mp
      rw [UInt8.toNat_ofNat']
      omega
    rw [hdiv, hmod, htail]

theorem leValue_magnitude (h : n < 256 ^ width) : leValue (magnitude width n) = n := by
  induction width generalizing n with
  | zero =>
    rw [pow_zero, Nat.lt_one_iff] at h
    rw [h]
    rfl
  | succ width ih =>
    rw [magnitude]
    split_ifs with hzero
    · rw [hzero]
      rfl
    · rw [pow_succ'] at h
      rw [leValue, ih (by omega), UInt8.toNat_ofNat']
      omega

theorem magnitude_last (h : n < 256 ^ width) : ∀ b ∈ (magnitude width n).getLast?, b ≠ 0 := by
  induction width generalizing n with
  | zero => nofun
  | succ width ih =>
    rw [pow_succ'] at h
    rw [magnitude]
    split_ifs with hzero
    · nofun
    · intro b hb hb0
      have hrest := ih (by omega : n / 256 < 256 ^ width)
      rw [getLast?_cons, Option.mem_some] at hb
      cases htail : (magnitude width (n / 256)).getLast? with
      | none =>
        rw [htail, Option.getD_none, hb0] at hb
        have hval := leValue_magnitude (by omega : n / 256 < 256 ^ width)
        rw [getLast?_eq_none_iff.mp htail, leValue] at hval
        have hbyte := congrArg UInt8.toNat hb
        rw [UInt8.toNat_ofNat'] at hbyte
        have hzero' : (0 : UInt8).toNat = 0 := rfl
        omega
      | some c =>
        rw [htail, Option.getD_some, hb0] at hb
        exact hrest c htail hb

theorem sign_iff (b : UInt8) : b &&& 0x80 ≠ 0 ↔ 128 ≤ b.toNat :=
  byte_cases (p := fun b => b &&& 0x80 ≠ 0 ↔ 128 ≤ b.toNat) (by decide +kernel) b

theorem unsigned_iff (b : UInt8) : b &&& 0x7f = 0 ↔ b.toNat % 128 = 0 :=
  byte_cases (p := fun b => b &&& 0x7f = 0 ↔ b.toNat % 128 = 0) (by decide +kernel) b

theorem toNat_or_sign {b : UInt8} (h : b.toNat < 128) : (b ||| 0x80).toNat = b.toNat + 128 :=
  byte_cases (p := fun b => b.toNat < 128 → (b ||| 0x80).toNat = b.toNat + 128)
    (by decide +kernel) b h

def absolute (body : Bytes) (last : UInt8) : Nat :=
  leValue body + 256 ^ body.length * (last.toNat % 128)

theorem absolute_lt (body : Bytes) (last : UInt8) :
    absolute body last < 2 ^ (8 * body.length + 7) := by
  have hbody := leValue_lt body
  have hpow : (256 : Nat) ^ body.length = 2 ^ (8 * body.length) := by
    rw [Nat.pow_mul]
  have hmul : 256 ^ body.length * (last.toNat % 128 + 1) ≤ 256 ^ body.length * 128 :=
    Nat.mul_le_mul_left _ (by omega)
  rw [Nat.mul_add, Nat.mul_one] at hmul
  rw [absolute, Nat.pow_add, ← hpow]
  omega

theorem setVch_concat (body : Bytes) (last : UInt8) :
    Script.setVch (body ++ [last]) =
      if 128 ≤ last.toNat then -(absolute body last : Int) else absolute body last := by
  have hlast := last.toNat_lt
  rw [Script.setVch, getLast?_concat]
  rw [length_append, length_singleton, Nat.add_sub_cancel, leValue_concat, absolute]
  simp only [sign_iff]
  split_ifs with hsign
  · rw [show last.toNat % 128 = last.toNat - 128 by omega]
    push_cast [Nat.cast_sub hsign]
    ring
  · rw [Nat.mod_eq_of_lt (not_le.mp hsign)]

theorem nonMinimal_concat (body : Bytes) (last : UInt8) :
    nonMinimal (body ++ [last]) ↔
      last.toNat % 128 = 0 ∧ (body = [] ∨ (body.getLastD 0).toNat < 128) := by
  have hlen : body.length + 1 ≤ 1 ↔ body = [] := by
    rw [← length_eq_zero_iff]
    omega
  have hbit : body.getLastD 0 &&& 0x80 = 0 ↔ (body.getLastD 0).toNat < 128 := by
    rw [← not_le, ← sign_iff, not_not]
  rw [nonMinimal, getLastD_concat, dropLast_concat, unsigned_iff, length_append,
    length_singleton, hlen, hbit]

theorem le_absolute (hminimal : ¬nonMinimal (body ++ [last])) (hne : body ≠ []) :
    2 ^ (8 * body.length - 1) ≤ absolute body last := by
  rw [nonMinimal_concat] at hminimal
  obtain hnil | ⟨front, top, hfront⟩ := eq_nil_or_concat body
  · exact absurd hnil hne
  rw [concat_eq_append] at hfront
  subst hfront
  rw [getLastD_concat] at hminimal
  have hpow : 2 ^ (8 * (front ++ [top]).length - 1) = 256 ^ front.length * 128 := by
    rw [length_append, length_singleton,
      show 8 * (front.length + 1) - 1 = 8 * front.length + 7 by omega, Nat.pow_add, Nat.pow_mul]
  rw [hpow, absolute, leValue_concat, length_append, length_singleton]
  by_cases hzero : last.toNat % 128 = 0
  · have htop : 256 ^ front.length * 128 ≤ 256 ^ front.length * top.toNat :=
      Nat.mul_le_mul_left _ (by omega)
    omega
  · have hbyte : 256 ^ (front.length + 1) * 1 ≤ 256 ^ (front.length + 1) * (last.toNat % 128) :=
      Nat.mul_le_mul_left _ (by omega)
    rw [Nat.pow_succ] at hbyte ⊢
    omega

theorem serialize_concat (hne : value ≠ 0) (hlt : value.natAbs < 256 ^ 8) :
    ∃ body last, Script.serialize value = body ++ [last] ∧ (128 ≤ last.toNat ↔ value < 0) ∧
      absolute body last = value.natAbs ∧ ¬nonMinimal (body ++ [last]) := by
  have hvalue := leValue_magnitude hlt
  have hlast := magnitude_last hlt
  rw [Script.serialize, if_neg hne]
  dsimp only
  obtain hnil | ⟨body, last, hconcat⟩ := eq_nil_or_concat (magnitude 8 value.natAbs)
  · rw [hnil, leValue] at hvalue
    omega
  rw [concat_eq_append] at hconcat
  rw [hconcat] at hvalue hlast ⊢
  have hnonzero : last.toNat ≠ 0 := fun h => hlast last getLast?_concat
    (UInt8.toNat_inj.mp h)
  rw [getLastD_concat, dropLast_concat, leValue_concat] at *
  simp only [sign_iff]
  by_cases htop : 128 ≤ last.toNat
  · -- the sign needs a byte of its own
    rw [if_pos htop]
    refine ⟨body ++ [last], _, rfl, ?_, ?_, ?_⟩
    · by_cases hneg : value < 0 <;> simp [hneg]
    · rw [absolute, leValue_concat, hvalue]
      by_cases hneg : value < 0 <;> simp [hneg]
    · rw [nonMinimal_concat, getLastD_concat]
      rintro ⟨-, hnil | hlow⟩
      · exact cons_ne_nil _ _ (append_eq_nil_iff.mp hnil).2
      · omega
  · rw [if_neg htop]
    by_cases hneg : value < 0
    · have hor := toNat_or_sign (not_le.mp htop)
      refine ⟨body, last ||| 0x80, by simp [hneg], by omega, ?_, ?_⟩
      · rw [absolute, hor, show (last.toNat + 128) % 128 = last.toNat by omega, hvalue]
      · rw [nonMinimal_concat]
        omega
    · refine ⟨body, last, by simp [hneg], by omega, ?_, ?_⟩
      · rw [absolute, Nat.mod_eq_of_lt (not_le.mp htop), hvalue]
      · rw [nonMinimal_concat]
        omega

theorem setVch_serialize (hlt : value.natAbs < 256 ^ 8) :
    Script.setVch (Script.serialize value) = value := by
  by_cases hne : value = 0
  · rw [hne]
    rfl
  · obtain ⟨body, last, heq, hsign, habs, -⟩ := serialize_concat hne hlt
    rw [heq, setVch_concat, habs, if_congr hsign rfl rfl]
    split_ifs <;> omega

theorem serialize_minimal (hlt : value.natAbs < 256 ^ 8)
    (hpos : 0 < (Script.serialize value).length) : ¬nonMinimal (Script.serialize value) := by
  by_cases hne : value = 0
  · rw [hne] at hpos
    exact absurd hpos (by decide)
  · obtain ⟨body, last, heq, -, -, hminimal⟩ := serialize_concat hne hlt
    rw [heq]
    exact hminimal

theorem low_byte (last : UInt8) : (last &&& 0x7f).toNat = last.toNat % 128 ∧
    last = if 128 ≤ last.toNat then last &&& 0x7f ||| 0x80 else last &&& 0x7f :=
  byte_cases (p := fun last => (last &&& 0x7f).toNat = last.toNat % 128 ∧
    last = if 128 ≤ last.toNat then last &&& 0x7f ||| 0x80 else last &&& 0x7f)
    (by decide +kernel) last

theorem magnitude_absolute (hlen : body.length < 8) (hminimal : ¬nonMinimal (body ++ [last])) :
    magnitude 8 (absolute body last) =
      if last.toNat % 128 = 0 then body else body ++ [last &&& 0x7f] := by
  obtain ⟨hlow, -⟩ := low_byte last
  rw [nonMinimal_concat] at hminimal
  split_ifs with htop
  · rw [absolute, htop, mul_zero, add_zero]
    refine magnitude_leValue hlen.le fun b hb hzero => hminimal ⟨htop, .inr ?_⟩
    rw [getLastD_eq_getLast?, hb, hzero]
    decide
  · rw [absolute, ← hlow, ← leValue_concat]
    refine magnitude_leValue ?_ fun b hb hzero => htop ?_
    · rw [length_append, length_singleton]
      omega
    · rw [getLast?_concat, Option.mem_some] at hb
      rw [← hlow, hb, hzero]
      rfl

theorem serialize_setVch (hlen : body.length < 8) (hminimal : ¬nonMinimal (body ++ [last])) :
    Script.serialize (Script.setVch (body ++ [last])) = body ++ [last] := by
  obtain ⟨hlow, hsplit⟩ := low_byte last
  have hdigits := magnitude_absolute hlen hminimal
  have hpos : absolute body last ≠ 0 := by
    intro hzero
    rw [hzero] at hdigits
    have hnil : magnitude 8 0 = [] := rfl
    rw [nonMinimal_concat] at hminimal
    split_ifs at hdigits with htop
    · exact hminimal ⟨htop, .inl (hdigits.symm.trans hnil)⟩
    · exact cons_ne_nil _ _ (append_eq_nil_iff.mp (hdigits.symm.trans hnil)).2
  have hvalue := setVch_concat body last
  generalize Script.setVch (body ++ [last]) = value at hvalue ⊢
  have hneg : value < 0 ↔ 128 ≤ last.toNat := by
    rw [hvalue]
    split_ifs <;> omega
  have habs : value.natAbs = absolute body last := by
    rw [hvalue]
    split_ifs <;> omega
  have hne : value ≠ 0 := by omega
  rw [Script.serialize, if_neg hne]
  simp only [habs, hdigits, hneg, sign_iff, decide_eq_true_eq]
  rw [nonMinimal_concat] at hminimal
  by_cases htop : last.toNat % 128 = 0
  · have hsign : last = if 128 ≤ last.toNat then 0x80 else 0 := by
      have hzero : last &&& 0x7f = 0 := (unsigned_iff last).mpr htop
      rw [hzero] at hsplit
      exact hsplit
    have hbody : 128 ≤ (body.getLastD 0).toNat := by omega
    rw [if_pos htop, if_pos hbody, ← hsign]
  · have hbyte : ¬128 ≤ (last &&& 0x7f).toNat := by omega
    rw [if_neg htop, getLastD_concat, dropLast_concat, if_neg hbyte]
    rw [← apply_ite (fun b => body ++ [b]), ← hsplit]

theorem toInt_ofInt (hlt : value.natAbs < 2 ^ 63) : (BitVec.ofInt 64 value).toInt = value := by
  rw [BitVec.toInt_ofInt]
  apply Int.bmod_eq_of_le <;> omega

theorem toNat_of_nonneg {x : BitVec 64} (h : 0 ≤ x.toInt) : (x.toNat : Int) = x.toInt := by
  have hlt := x.isLt
  rw [BitVec.toInt_eq_toNat_cond] at h ⊢
  split_ifs at h ⊢
  · rfl
  · omega

theorem and_not_sign (hn : n < 2 ^ (k + 7)) (hk : k + 7 < 64) :
    BitVec.ofNat 64 (n + 2 ^ (k + 7)) &&& ~~~(0x80#64 <<< k) = BitVec.ofNat 64 n := by
  have hbit : 0x80#64 <<< k = BitVec.twoPow 64 (k + 7) := by
    apply BitVec.eq_of_toNat_eq
    rw [BitVec.toNat_shiftLeft, BitVec.toNat_twoPow, Nat.shiftLeft_eq, pow_add, mul_comm]
    rfl
  have hor : n + 2 ^ (k + 7) = 2 ^ (k + 7) ||| n := by
    have := Nat.two_pow_add_eq_or_of_lt hn 1
    rw [mul_one] at this
    omega
  rw [hbit, hor]
  apply BitVec.eq_of_getLsbD_eq
  intro i hi
  simp only [BitVec.getLsbD_and, BitVec.getLsbD_not, BitVec.getLsbD_twoPow, BitVec.getLsbD_ofNat,
    Nat.testBit_or, Nat.testBit_two_pow, hi, hk, decide_true, Bool.true_and]
  by_cases heq : k + 7 = i
  · subst heq
    simp [Nat.testBit_lt_two_pow hn]
  · simp [heq]

theorem toInt_setVch (hlen : vch.length ≤ 8) : (setVch vch).toInt = Script.setVch vch := by
  obtain rfl | ⟨body, last, hconcat⟩ := eq_nil_or_concat vch
  · rfl
  rw [concat_eq_append] at hconcat
  subst hconcat
  have hk : body.length < 8 := by
    rw [length_append, length_singleton] at hlen
    omega
  have hpow : (256 : Nat) ^ body.length = 2 ^ (8 * body.length) := by
    rw [Nat.pow_mul]
  have hlast := last.toNat_lt
  have habs := absolute_lt body last
  have hwide : 2 ^ (8 * body.length + 7) ≤ 2 ^ 63 := Nat.pow_le_pow_right (by decide) (by omega)
  have hsmall : ((absolute body last : Nat) : Int).natAbs < 2 ^ 63 := by omega
  rw [setVch_concat, setVch, getLast?_concat]
  rw [orBytes_leValue hlen, length_append, length_singleton, Nat.add_sub_cancel]
  simp only [sign_iff]
  split_ifs with hsign
  · have hsplit : leValue (body ++ [last]) = absolute body last + 2 ^ (8 * body.length + 7) := by
      have hmul : 256 ^ body.length * last.toNat =
          256 ^ body.length * (last.toNat % 128) + 256 ^ body.length * 128 := by
        rw [← Nat.mul_add]
        congr 1
        omega
      rw [leValue_concat, absolute, Nat.pow_add, ← hpow, hmul]
      omega
    rw [hsplit, and_not_sign habs (by omega), BitVec.toInt_neg, ← BitVec.ofInt_natCast, toInt_ofInt hsmall]
    apply Int.bmod_eq_of_le <;> omega
  · rw [leValue_concat, ← Nat.mod_eq_of_lt (Nat.not_le.mp hsign), ← absolute,
      ← BitVec.ofInt_natCast, toInt_ofInt hsmall]

theorem pushBytes_eq (rounds : Nat) (absvalue : BitVec 64) :
    pushBytes rounds absvalue = magnitude rounds absvalue.toNat := by
  induction rounds generalizing absvalue with
  | zero => rfl
  | succ rounds ih =>
    rw [pushBytes, magnitude, ih]
    have hzero : absvalue = 0 ↔ absvalue.toNat = 0 := BitVec.toNat_inj.symm
    have hmask : absvalue.toNat &&& 255 = absvalue.toNat % 256 :=
      Nat.and_two_pow_sub_one_eq_mod _ 8
    have hbyte : (⟨(absvalue &&& 0xff).setWidth 8⟩ : UInt8) = .ofNat absvalue.toNat := by
      apply UInt8.toNat_inj.mp
      rw [UInt8.toNat_ofNat']
      change ((absvalue &&& 0xff).setWidth 8).toNat = _
      rw [BitVec.toNat_setWidth, BitVec.toNat_and]
      change (absvalue.toNat &&& 255) % 256 = _
      rw [hmask, Nat.mod_mod]
    have hshift : (absvalue >>> 8).toNat = absvalue.toNat / 256 := by
      rw [BitVec.toNat_ushiftRight, Nat.shiftRight_eq_div_pow]
    rw [hbyte, hshift]
    exact if_congr hzero rfl rfl

theorem serialize_ofInt (hlt : value.natAbs < 2 ^ 63) :
    serialize (BitVec.ofInt 64 value) = Script.serialize value := by
  have hvalue := toInt_ofInt hlt
  generalize BitVec.ofInt 64 value = word at hvalue
  have hzero : word = 0 ↔ value = 0 := by
    rw [← hvalue]
    exact BitVec.toInt_inj.symm
  have hneg : word.msb = decide (value < 0) := by
    rw [BitVec.msb_eq_toInt, hvalue]
  have habs : (if value < 0 then -word else word).toNat = value.natAbs := by
    have hnonneg : (if value < 0 then -word else word).toInt = value.natAbs := by
      split_ifs with hsign
      · rw [BitVec.toInt_neg, hvalue, Int.bmod_eq_of_le] <;> omega
      · omega
    have hcast := toNat_of_nonneg (by omega : 0 ≤ (if value < 0 then -word else word).toInt)
    omega
  rw [serialize, Script.serialize]
  simp only [hzero, hneg, decide_eq_true_eq, pushBytes_eq, habs]

theorem length_serialize_le (hlt : value.natAbs < 2 ^ 63) :
    (Script.serialize value).length ≤ 8 := by
  by_cases hne : value = 0
  · rw [hne]
    decide
  · obtain ⟨body, last, heq, -, habs, hminimal⟩ := serialize_concat hne (by omega)
    rw [heq, length_append, length_singleton]
    by_contra hlong
    have hle := le_absolute hminimal (ne_nil_of_length_pos (by omega))
    have hwide : 2 ^ 63 ≤ 2 ^ (8 * body.length - 1) := Nat.pow_le_pow_right (by decide) (by omega)
    omega

theorem natAbs_setVch_lt (hlen : vch.length ≤ 8) : (Script.setVch vch).natAbs < 2 ^ 63 := by
  obtain rfl | ⟨body, last, hconcat⟩ := eq_nil_or_concat vch
  · decide
  rw [concat_eq_append] at hconcat
  rw [hconcat, length_append, length_singleton] at hlen
  have habs := absolute_lt body last
  have hwide : 2 ^ (8 * body.length + 7) ≤ 2 ^ 63 := Nat.pow_le_pow_right (by decide) (by omega)
  rw [hconcat, setVch_concat]
  split_ifs <;> omega

theorem serialize_setVch_word (hlen : vch.length ≤ 8) :
    serialize (setVch vch) = Script.serialize (Script.setVch vch) := by
  rw [← serialize_ofInt (natAbs_setVch_lt hlen), ← toInt_setVch hlen, BitVec.ofInt_toInt]

theorem minimal_iff (hlen : vch.length ≤ 8) :
    ¬(vch.length > 0 ∧ nonMinimal vch) ↔ vch = Script.serialize (Script.setVch vch) := by
  constructor
  · intro hminimal
    obtain rfl | ⟨body, last, hconcat⟩ := eq_nil_or_concat vch
    · rfl
    rw [concat_eq_append] at hconcat
    rw [hconcat, length_append, length_singleton] at hlen hminimal
    rw [hconcat, serialize_setVch (by omega) fun h => hminimal ⟨Nat.succ_pos _, h⟩]
  · rintro heq ⟨hpos, hnon⟩
    have hlt := natAbs_setVch_lt hlen
    rw [heq] at hpos hnon
    exact serialize_minimal (by omega) hpos hnon

/-- Every number of fewer than 64 bits is read back from what `serialize` writes. The forms accepted
as minimal are exactly those that `serialize` writes. -/
theorem script_number_minimal_form :
    (∀ (n : Int) (fRequireMinimal : Bool), |n| < 2 ^ 63 →
      ∃ value, scriptNum (serialize (BitVec.ofInt 64 n)) fRequireMinimal 8 = some value ∧
        value.toInt = n) ∧
    ∀ (vch : Bytes) (nMaxNumSize : Nat), nMaxNumSize ≤ 8 → vch.length ≤ nMaxNumSize →
      ((∃ value, scriptNum vch true nMaxNumSize = some value) ↔
        ∃ value, scriptNum vch false nMaxNumSize = some value ∧ vch = serialize value) := by
  refine ⟨fun n fRequireMinimal hn => ?_, fun vch nMaxNumSize hmax hlen => ?_⟩
  · have hlt : n.natAbs < 2 ^ 63 := by
      rw [abs_lt] at hn
      omega
    have hlen := length_serialize_le hlt
    have hminimal := serialize_minimal (by omega : n.natAbs < 256 ^ 8)
    rw [serialize_ofInt hlt, scriptNum, if_neg (Nat.not_lt.mpr hlen),
      if_neg fun h => hminimal h.2.1 h.2.2]
    refine ⟨_, rfl, ?_⟩
    rw [toInt_setVch hlen, setVch_serialize (by omega)]
  · have hlen8 := hlen.trans hmax
    have haccept : scriptNum vch false nMaxNumSize = some (setVch vch) := by
      rw [scriptNum, if_neg (Nat.not_lt.mpr hlen), if_neg fun h => Bool.false_ne_true h.1]
    rw [scriptNum, if_neg (Nat.not_lt.mpr hlen), haccept]
    simp only [Option.some.injEq, exists_eq_left', serialize_setVch_word hlen8]
    rw [← minimal_iff hlen8]
    simp only [true_and]
    split_ifs with h
    · simp [h]
    · simp [h]

theorem script_number_minimal_form_255 :
    (∃ value, scriptNum (serialize (BitVec.ofInt 64 (-255))) true 8 = some value ∧
      value.toInt = -255) ∧
    ((∃ value, scriptNum [0xff, 0x80] true 4 = some value) ↔
      ∃ value, scriptNum [0xff, 0x80] false 4 = some value ∧ [0xff, 0x80] = serialize value) :=
  ⟨script_number_minimal_form.1 _ _ (by decide),
    script_number_minimal_form.2 _ _ (by decide) (by decide)⟩

example : serialize (BitVec.ofInt 64 (-255)) = [0xff, 0x80] := by decide +kernel

end Utsuite.ScriptNum
