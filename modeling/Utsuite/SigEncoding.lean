import Mathlib.Data.List.GetD
import Utsuite.Interpreter
import Utsuite.PrivKey

namespace Utsuite.SigEncoding

open ByteWords Der Hoare List
open Interpreter (isValidSignatureEncoding refuse both)
open PrivKey (order)

section

/-- The parser stops at an encoding it refuses, or at a read at or beyond the end of the input. -/
inductive Stop
  | refused
  | outOfRange
  deriving DecidableEq

def add (a b : Nat) : Nat := (a + b) % 2 ^ 64

def sub (a b : Nat) : Nat := (a + 2 ^ 64 - b) % 2 ^ 64

variable (input : Bytes)

def get (pos : Nat) : Except Stop UInt8 :=
  match input[pos]? with
  | some b => .ok b
  | none => .error .outOfRange

def expectByte (pos : Nat) (tag : UInt8) : Except Stop Nat :=
  if pos = input.length then .error .refused
  else do
    let b ← get input pos
    if b ≠ tag then .error .refused else .ok (pos + 1)

def nextByte (pos : Nat) : Except Stop (Nat × Nat) :=
  if pos = input.length then .error .refused
  else do
    let b ← get input pos
    .ok (b.toNat, pos + 1)

def skipZeroes : Nat → Nat → Except Stop (Nat × Nat)
  | 0, pos => .ok (0, pos)
  | lenbyte + 1, pos => do
    let b ← get input pos
    if b = 0 then skipZeroes lenbyte (pos + 1) else .ok (lenbyte + 1, pos)

def readNumber : Nat → Nat → Nat → Except Stop (Nat × Nat)
  | 0, pos, rlen => .ok (rlen, pos)
  | lenbyte + 1, pos, rlen => do
    let b ← get input pos
    readNumber lenbyte (pos + 1) (add (rlen <<< 8 % 2 ^ 64) b.toNat)

def integerLength (lenbyte pos : Nat) : Except Stop (Nat × Nat) :=
  if lenbyte &&& 0x80 ≠ 0 then
    let lenbyte := lenbyte - 0x80
    if add pos lenbyte > input.length then .error .refused
    else do
      let (lenbyte, pos) ← skipZeroes input lenbyte pos
      if lenbyte ≥ 8 then .error .refused else readNumber input lenbyte pos 0
  else .ok (lenbyte, pos)

def readInteger (pos : Nat) : Except Stop (Nat × Nat × Nat) := do
  let pos ← expectByte input pos 0x02
  let (lenbyte, pos) ← nextByte input pos
  let (rlen, pos) ← integerLength input lenbyte pos
  if rlen > sub input.length pos then .error .refused else .ok (pos, rlen, add pos rlen)

def readSequence : Except Stop Nat := do
  let pos ← expectByte input 0 0x30
  let (lenbyte, pos) ← nextByte input pos
  if lenbyte &&& 0x80 ≠ 0 then
    let lenbyte := lenbyte - 0x80
    if add pos lenbyte > input.length then .error .refused else .ok (add pos lenbyte)
  else .ok pos

/-- One half of `tmpsig` without its leading zeroes. `none` stands for the flag `overflow`. -/
def copyValue (rpos rlen : Nat) : Except Stop (Option Bytes) := do
  let (rlen, rpos) ← skipZeroes input rlen rpos
  if rlen > 32 then .ok none
  else if input.length < rpos + rlen then .error .outOfRange
  else .ok (some (replicate (32 - rlen) 0 ++ (input.drop rpos).take rlen))

def parseCompact (r s : Bytes) : Option (Nat × Nat) :=
  if beValue r < order ∧ beValue s < order then some (beValue r, beValue s) else none

def parseDerLax : Except Stop (Nat × Nat) := do
  let pos ← readSequence input
  let (rpos, rlen, pos) ← readInteger input pos
  let (spos, slen, _) ← readInteger input pos
  let r ← copyValue input rpos rlen
  let s ← copyValue input spos slen
  match r, s with
  | some r, some s => .ok ((parseCompact r s).getD (0, 0))
  | _, _ => .ok (0, 0)

end

section

variable {input : Bytes} {pos : Nat}

def InRange (e : Stop) : Prop := e ≠ .outOfRange

theorem get_ends (h : pos < input.length) : Ends (get input pos) (fun _ => True) InRange := by
  rw [get, getElem?_eq_getElem h]
  exact trivial

theorem expectByte_ends (h : pos ≤ input.length) (tag : UInt8) :
    Ends (expectByte input pos tag) (fun pos' => pos' ≤ input.length) InRange := by
  apply Ends.guard nofun
  intro hend
  have hlt : pos < input.length := lt_of_le_of_ne h hend
  apply (get_ends hlt).bind
  intro b _
  exact Ends.guard nofun fun _ => hlt

theorem nextByte_ends (h : pos ≤ input.length) :
    Ends (nextByte input pos) (fun p => p.1 < 256 ∧ p.2 ≤ input.length) InRange := by
  apply Ends.guard nofun
  intro hend
  have hlt : pos < input.length := lt_of_le_of_ne h hend
  exact (get_ends hlt).bind fun b _ => ⟨b.toNat_lt, hlt⟩

theorem skipZeroes_ends (h : pos + lenbyte ≤ input.length) :
    Ends (skipZeroes input lenbyte pos) (fun p => p.2 + p.1 = pos + lenbyte) InRange := by
  induction lenbyte generalizing pos with
  | zero => exact rfl
  | succ lenbyte ih =>
    rw [skipZeroes]
    refine (get_ends (by omega)).bind fun b _ => ?_
    split
    · exact (ih (by omega)).imp fun p hp => by omega
    · exact rfl

theorem readNumber_ends (h : pos + lenbyte ≤ input.length) (hrlen : rlen < 2 ^ 64) :
    Ends (readNumber input lenbyte pos rlen) (fun p => p.1 < 2 ^ 64 ∧ p.2 = pos + lenbyte) InRange := by
  induction lenbyte generalizing pos rlen with
  | zero => exact ⟨hrlen, rfl⟩
  | succ lenbyte ih =>
    rw [readNumber]
    refine (get_ends (by omega)).bind fun b _ => ?_
    exact (ih (by omega) (Nat.mod_lt _ (by decide))).imp fun p hp => by omega

theorem add_eq (h : a + b < 2 ^ 64) : add a b = a + b := Nat.mod_eq_of_lt h

theorem sub_eq (h : b ≤ a) (ha : a < 2 ^ 64) : sub a b = a - b := by
  rw [sub]
  omega

theorem integerLength_ends (hinput : input.length < 2 ^ 63) (h : pos ≤ input.length)
    (hlenbyte : lenbyte < 256) :
    Ends (integerLength input lenbyte pos) (fun p => p.1 < 2 ^ 64 ∧ p.2 ≤ input.length) InRange := by
  have hsum : add pos (lenbyte - 0x80) = pos + (lenbyte - 0x80) := add_eq (by omega)
  rw [integerLength]
  simp only [hsum]
  by_cases hlong : lenbyte &&& 0x80 ≠ 0
  · rw [if_pos hlong]
    generalize lenbyte - 0x80 = size
    apply Ends.guard nofun
    intro hfit
    apply (skipZeroes_ends (not_lt.mp hfit)).bind
    rintro ⟨lenbyte', pos'⟩ hskip
    change pos' + lenbyte' = _ at hskip
    apply Ends.guard nofun
    intro _
    exact (readNumber_ends (by omega) (by decide)).imp fun q hq => ⟨hq.1, by omega⟩
  · rw [if_neg hlong]
    exact ⟨by omega, h⟩

theorem readInteger_ends (hinput : input.length < 2 ^ 63) (h : pos ≤ input.length) :
    Ends (readInteger input pos) (fun p => p.1 + p.2.1 ≤ input.length ∧ p.2.2 ≤ input.length)
      InRange := by
  rw [readInteger]
  refine (expectByte_ends h _).bind fun pos hpos => ?_
  refine (nextByte_ends hpos).bind fun ⟨lenbyte, pos⟩ hnext => ?_
  refine (integerLength_ends hinput hnext.2 hnext.1).bind fun ⟨rlen, pos⟩ hlength => ?_
  obtain ⟨hrlen, hpos⟩ : rlen < 2 ^ 64 ∧ pos ≤ input.length := hlength
  have hsub : sub input.length pos = input.length - pos := sub_eq hpos (by omega)
  apply Ends.guard nofun
  intro hfit
  rw [hsub] at hfit
  have hsum : add pos rlen = pos + rlen := add_eq (by omega)
  change pos + rlen ≤ _ ∧ add pos rlen ≤ _
  rw [hsum]
  exact ⟨by omega, by omega⟩

theorem readSequence_ends : Ends (readSequence input) (fun pos => pos ≤ input.length) InRange := by
  rw [readSequence]
  refine (expectByte_ends (Nat.zero_le _) _).bind fun pos hpos => ?_
  refine (nextByte_ends hpos).bind fun ⟨lenbyte, pos⟩ hnext => ?_
  change Ends (if lenbyte &&& 0x80 ≠ 0 then
    if add pos (lenbyte - 0x80) > input.length then _ else _ else _) _ _
  by_cases hlong : lenbyte &&& 0x80 ≠ 0
  · rw [if_pos hlong]
    generalize add pos (lenbyte - 0x80) = pos
    exact Ends.guard nofun not_lt.mp
  · rw [if_neg hlong]
    exact hnext.2

theorem copyValue_ends (h : rpos + rlen ≤ input.length) :
    Ends (copyValue input rpos rlen) (fun _ => True) InRange := by
  rw [copyValue]
  refine (skipZeroes_ends h).bind fun ⟨rlen', rpos'⟩ hskip => ?_
  have hroom : ¬input.length < rpos' + rlen' := by
    change rpos' + rlen' = _ at hskip
    omega
  change Ends (if rlen' > 32 then _ else if input.length < rpos' + rlen' then _ else _) _ _
  rw [if_neg hroom]
  split
  · exact trivial
  · exact trivial

theorem parseDerLax_ends (hinput : input.length < 2 ^ 63) :
    Ends (parseDerLax input) (fun _ => True) InRange := by
  rw [parseDerLax]
  refine readSequence_ends.bind fun pos hpos => ?_
  refine (readInteger_ends hinput hpos).bind fun r hr => ?_
  refine (readInteger_ends hinput hr.2).bind fun s hs => ?_
  refine (copyValue_ends hr.1).bind fun r _ => ?_
  refine (copyValue_ends hs.1).bind fun s _ => ?_
  split
  · exact trivial
  · exact trivial

end

def NonNegative (R : Bytes) : Prop := ∃ b rest, R = b :: rest ∧ b.toNat < 0x80

def Minimal (R : Bytes) : Prop :=
  NonNegative R ∧ ∀ R', NonNegative R' → beValue R' = beValue R → R.length ≤ R'.length

structure ShortForm (R : Bytes) : Prop where
  nonempty : R ≠ []
  nonnegative : R.getD 0 0 &&& 0x80 = 0
  unpadded : ¬(R.length > 1 ∧ R.getD 0 0 = 0 ∧ R.getD 1 0 &&& 0x80 = 0)

theorem high_bit_clear (b : UInt8) : b &&& 0x80 = 0 ↔ b.toNat < 0x80 :=
  byte_cases (p := fun b => b &&& 0x80 = 0 ↔ b.toNat < 0x80) (by decide +kernel) b

theorem NonNegative.lt (h : NonNegative R) : beValue R < 0x80 * 256 ^ (R.length - 1) := by
  obtain ⟨b, rest, rfl, hb⟩ := h
  have hrest := beValue_lt rest
  have hmul : (b.toNat + 1) * 256 ^ rest.length ≤ 0x80 * 256 ^ rest.length :=
    Nat.mul_le_mul_right _ hb
  rw [beValue_cons, length_cons, Nat.add_sub_cancel]
  rw [add_mul] at hmul
  omega

theorem NonNegative.length_pos (h : NonNegative R) : 0 < R.length := by
  obtain ⟨b, rest, rfl, -⟩ := h
  exact Nat.succ_pos _

theorem NonNegative.length_le (h : NonNegative R) (hvalue : 0x80 * 256 ^ n ≤ beValue R) :
    n + 2 ≤ R.length := by
  have hlt := lt_of_le_of_lt hvalue h.lt
  have hpow : n < R.length - 1 := by
    apply (Nat.pow_lt_pow_iff_right (by decide : 1 < 256)).mp
    omega
  omega

theorem minimal_of_shortForm (h : ShortForm R) : Minimal R := by
  obtain ⟨hne, hnonneg, hunpadded⟩ := h
  cases R with
  | nil => exact absurd rfl hne
  | cons b rest =>
    have hb : b.toNat < 0x80 := (high_bit_clear b).mp hnonneg
    refine ⟨⟨b, rest, rfl, hb⟩, fun R' hR' hvalue => ?_⟩
    cases rest with
    | nil => exact hR'.length_pos
    | cons c rest =>
      apply hR'.length_le
      rw [hvalue, beValue_cons, beValue_cons, length_cons, pow_succ]
      by_cases hzero : b = 0
      · -- a zero that stands before a byte with its high bit set
        have hc : ¬c.toNat < 0x80 := fun hc =>
          hunpadded ⟨Nat.succ_lt_succ (Nat.succ_pos _), hzero, (high_bit_clear c).mpr hc⟩
        have hmul : 0x80 * 256 ^ rest.length ≤ c.toNat * 256 ^ rest.length :=
          Nat.mul_le_mul_right _ (not_lt.mp hc)
        omega
      · have hpos : 0 < b.toNat := pos_of_ne_zero fun h => hzero (UInt8.toNat_inj.mp h)
        have hmul : 1 * (256 ^ rest.length * 256) ≤ b.toNat * (256 ^ rest.length * 256) :=
          Nat.mul_le_mul_right _ hpos
        omega

theorem shortForm_of_minimal (h : Minimal R) : ShortForm R := by
  obtain ⟨⟨b, rest, rfl, hb⟩, hshortest⟩ := h
  refine ⟨cons_ne_nil _ _, (high_bit_clear b).mpr hb, ?_⟩
  rintro ⟨hlength, hzero, hclear⟩
  cases rest with
  | nil => exact absurd hlength (lt_irrefl 1)
  | cons c rest =>
    have hc : c.toNat < 0x80 := (high_bit_clear c).mp hclear
    have hvalue : beValue (c :: rest) = beValue (b :: c :: rest) := by
      have hb0 : b = 0 := hzero
      rw [hb0, beValue_cons 0 (c :: rest), UInt8.toNat_zero, zero_mul, zero_add]
    have hle := hshortest (c :: rest) ⟨c, rest, rfl, hc⟩ hvalue
    exact absurd hle (by simp only [length_cons]; omega)

section

variable {sig : Bytes}

def Decides (test : Option Bool) (P : Prop) : Prop := ∃ b, test = some b ∧ (b = true ↔ P)

theorem decides_decide (P : Prop) [Decidable P] : Decides (some (decide P)) P :=
  ⟨_, rfl, decide_eq_true_iff⟩

theorem Decides.refuse (hc : Decides c P) (hk : ¬P → Decides k Q) :
    Decides (refuse c k) (¬P ∧ Q) := by
  obtain ⟨b, rfl, hb⟩ := hc
  cases b with
  | true => exact ⟨false, rfl, by simp [hb.mp rfl]⟩
  | false =>
    have hP : ¬P := fun hP => Bool.false_ne_true (hb.mpr hP)
    obtain ⟨b, hkb, hQ⟩ := hk hP
    exact ⟨b, hkb, hQ.trans (and_iff_right hP).symm⟩

theorem Decides.both (ha : Decides a P) (hb : P → Decides b Q) : Decides (both a b) (P ∧ Q) := by
  obtain ⟨c, rfl, hc⟩ := ha
  cases c with
  | false =>
    have hP : ¬P := fun hP => Bool.false_ne_true (hc.mpr hP)
    exact ⟨false, rfl, by simp [hP]⟩
  | true =>
    obtain ⟨d, hd, hQ⟩ := hb (hc.mp rfl)
    exact ⟨d, hd, hQ.trans (and_iff_right (hc.mp rfl)).symm⟩

theorem read_eq (h : i < sig.length) : sig[i]? = some (sig.getD i 0) := by
  rw [getD_eq_getElem?_getD, getElem?_eq_getElem h, Option.getD_some]

theorem decides_read (h : i < sig.length) {f : UInt8 → Bool} {P : UInt8 → Prop}
    (hf : ∀ b, f b = true ↔ P b) : Decides (sig[i]?.map f) (P (sig.getD i 0)) := by
  rw [read_eq h]
  exact ⟨_, rfl, hf _⟩

def StrictBytes (sig : Bytes) : Prop :=
  let lenR := sig.getD 3 0
  let lenS := sig.getD (5 + lenR.toNat) 0
  ¬sig.length < 9 ∧ ¬sig.length > 73 ∧ ¬sig.getD 0 0 ≠ 0x30 ∧
    ¬(sig.getD 1 0).toNat ≠ sig.length - 3 ∧ ¬5 + lenR.toNat ≥ sig.length ∧
    ¬lenR.toNat + lenS.toNat + 7 ≠ sig.length ∧ ¬sig.getD 2 0 ≠ 0x02 ∧ ¬lenR = 0 ∧
    ¬sig.getD 4 0 &&& 0x80 ≠ 0 ∧
    ¬(lenR > 1 ∧ sig.getD 4 0 = 0 ∧ sig.getD 5 0 &&& 0x80 = 0) ∧
    ¬sig.getD (lenR.toNat + 4) 0 ≠ 0x02 ∧ ¬lenS = 0 ∧
    ¬sig.getD (lenR.toNat + 6) 0 &&& 0x80 ≠ 0 ∧
    ¬(lenS > 1 ∧ sig.getD (lenR.toNat + 6) 0 = 0 ∧ sig.getD (lenR.toNat + 7) 0 &&& 0x80 = 0) ∧
    True

theorem decides_isValidSignatureEncoding (sig : Bytes) :
    Decides (isValidSignatureEncoding sig) (StrictBytes sig) := by
  rw [isValidSignatureEncoding]
  refine (decides_decide _).refuse fun hmin => ?_
  refine (decides_decide _).refuse fun hmax => ?_
  refine (decides_read (by omega) fun b => bne_iff_ne).refuse fun _ => ?_
  refine (decides_read (P := fun b => b.toNat ≠ sig.length - 3) (by omega)
    fun b => bne_iff_ne).refuse fun _ => ?_
  rw [read_eq (by omega : 3 < sig.length), Option.bind_some]
  refine (decides_decide _).refuse fun hlenR => ?_
  rw [read_eq (by omega), Option.bind_some]
  refine (decides_decide _).refuse fun hlenS => ?_
  refine (decides_read (by omega) fun b => bne_iff_ne).refuse fun _ => ?_
  refine (decides_decide _).refuse fun hR => ?_
  refine (decides_read (by omega) fun b => bne_iff_ne).refuse fun _ => ?_
  refine ((decides_decide _).both fun _ => (decides_read (by omega) fun b => beq_iff_eq).both
    fun _ => decides_read (by omega) fun b => beq_iff_eq).refuse fun _ => ?_
  refine (decides_read (by omega) fun b => bne_iff_ne).refuse fun _ => ?_
  refine (decides_decide _).refuse fun hS => ?_
  refine (decides_read (by omega) fun b => bne_iff_ne).refuse fun _ => ?_
  refine ((decides_decide _).both fun hlong => (decides_read (by omega) fun b => beq_iff_eq).both
    fun _ => decides_read ?_ fun b => beq_iff_eq).refuse fun _ => ?_
  · have hlong' := UInt8.lt_iff_toNat_lt.mp hlong
    change 1 < _ at hlong'
    omega
  · exact ⟨true, rfl, by simp⟩

def form (R S : Bytes) (hashType : UInt8) : Bytes :=
  0x30 :: .ofNat (R.length + S.length + 4) :: 0x02 :: .ofNat R.length ::
    (R ++ 0x02 :: .ofNat S.length :: (S ++ [hashType]))

theorem length_form (R S : Bytes) (hashType : UInt8) :
    (form R S hashType).length = R.length + S.length + 7 := by
  simp only [form, length_cons, length_append, length_nil]
  omega

theorem toNat_ofNat_of_lt (h : n < 256) : (UInt8.ofNat n).toNat = n := by
  rw [UInt8.toNat_ofNat', Nat.mod_eq_of_lt h]

theorem form_getD_R (R S : Bytes) (hashType : UInt8) (h : i < R.length) :
    (form R S hashType).getD (4 + i) 0 = R.getD i 0 := by
  rw [add_comm]
  exact getD_append _ _ _ _ h

theorem form_getD_tail (R S : Bytes) (hashType : UInt8) (i : Nat) :
    (form R S hashType).getD (R.length + 4 + i) 0 =
      (0x02 :: .ofNat S.length :: (S ++ [hashType])).getD i 0 := by
  rw [show R.length + 4 + i = R.length + i + 4 by omega]
  change (R ++ _).getD (R.length + i) 0 = _
  rw [getD_append_right _ _ _ _ (Nat.le_add_right _ _), Nat.add_sub_cancel_left]

theorem form_getD_S (R S : Bytes) (hashType : UInt8) (h : i < S.length) :
    (form R S hashType).getD (R.length + 6 + i) 0 = S.getD i 0 := by
  rw [show R.length + 6 + i = R.length + 4 + (i + 2) by omega, form_getD_tail]
  exact getD_append _ _ _ _ h

theorem shortForm_at (sig : Bytes) {R : Bytes} {len : UInt8} {pos : Nat} (hlen : len.toNat = R.length)
    (hget : ∀ i < R.length, sig.getD (pos + i) 0 = R.getD i 0) :
    ShortForm R ↔ ¬len = 0 ∧ ¬sig.getD pos 0 &&& 0x80 ≠ 0 ∧
      ¬(len > 1 ∧ sig.getD pos 0 = 0 ∧ sig.getD (pos + 1) 0 &&& 0x80 = 0) := by
  have hone : len > 1 ↔ R.length > 1 := by
    rw [← hlen]
    exact UInt8.lt_iff_toNat_lt
  have hzero : len = 0 ↔ R = [] := by
    rw [← length_eq_zero_iff, ← hlen]
    exact UInt8.toNat_inj.symm
  rw [hone, hzero]
  by_cases hne : R = []
  · exact ⟨fun h => absurd hne h.nonempty, fun h => absurd hne h.1⟩
  have hfirst : sig.getD pos 0 = R.getD 0 0 := hget 0 (length_pos_iff.mpr hne)
  rw [hfirst]
  constructor
  · rintro ⟨-, hclear, hunpadded⟩
    refine ⟨hne, not_not.mpr hclear, fun ⟨hlong, hb, hc⟩ => hunpadded ⟨hlong, hb, ?_⟩⟩
    rwa [← hget 1 hlong]
  · rintro ⟨-, hclear, hunpadded⟩
    refine ⟨hne, not_not.mp hclear, fun ⟨hlong, hb, hc⟩ => hunpadded ⟨hlong, hb, ?_⟩⟩
    rwa [hget 1 hlong]

theorem strictBytes_form {R S : Bytes} (hashType : UInt8) (h : R.length + S.length + 7 ≤ 73) :
    StrictBytes (form R S hashType) ↔ ShortForm R ∧ ShortForm S := by
  have hlenR : ((form R S hashType).getD 3 0).toNat = R.length := toNat_ofNat_of_lt (by omega)
  have hlenS : (form R S hashType).getD (5 + R.length) 0 = UInt8.ofNat S.length := by
    rw [show 5 + R.length = R.length + 4 + 1 by omega, form_getD_tail]
    rfl
  have htagS : (form R S hashType).getD (R.length + 4) 0 = 0x02 := form_getD_tail R S hashType 0
  have htotal : ((form R S hashType).getD 1 0).toNat = R.length + S.length + 4 :=
    toNat_ofNat_of_lt (by omega)
  have hS : (UInt8.ofNat S.length).toNat = S.length := toNat_ofNat_of_lt (by omega)
  rw [shortForm_at (form R S hashType) hlenR fun i hi => form_getD_R R S hashType hi,
    shortForm_at (form R S hashType) hS fun i hi => form_getD_S R S hashType hi]
  simp only [StrictBytes, hlenR, hlenS, htagS, htotal, hS, length_form]
  constructor
  · rintro ⟨hmin, -, -, -, -, -, -, hR0, hR1, hR2, -, hS0, hS1, hS2, -⟩
    exact ⟨⟨hR0, hR1, hR2⟩, hS0, hS1, hS2⟩
  · rintro ⟨⟨hR0, hR1, hR2⟩, hS0, hS1, hS2⟩
    have hR : 0 < R.length := Nat.pos_of_ne_zero fun hzero =>
      hR0 (UInt8.toNat_inj.mp (hlenR.trans hzero))
    have hSpos : 0 < S.length := Nat.pos_of_ne_zero fun hzero =>
      hS0 (UInt8.toNat_inj.mp (hS.trans hzero))
    exact ⟨by omega, by omega, not_not.mpr rfl, by omega, by omega, by omega, not_not.mpr rfl, hR0,
      hR1, hR2, not_not.mpr rfl, hS0, hS1, hS2, trivial⟩

theorem exists_append {l : Bytes} {n m : Nat} (h : l.length = n + m) :
    ∃ l₁ l₂, l = l₁ ++ l₂ ∧ l₁.length = n ∧ l₂.length = m := by
  refine ⟨l.take n, l.drop n, (take_append_drop n l).symm, ?_, ?_⟩
  · rw [length_take]
    omega
  · rw [length_drop]
    omega

theorem exists_form (h : StrictBytes sig) :
    ∃ R S hashType, sig = form R S hashType ∧ R.length + S.length + 7 ≤ 73 := by
  obtain ⟨hmin, hmax, htag, htotal, hlenR, hlenS, htagR, -, -, -, htagS, -⟩ := h
  rcases sig with _ | ⟨b₀, _ | ⟨b₁, _ | ⟨b₂, _ | ⟨b₃, rest⟩⟩⟩⟩
  iterate 4 exact absurd (by simp only [length_cons, length_nil]; omega) hmin
  have hgetS : (b₀ :: b₁ :: b₂ :: b₃ :: rest).getD (5 + b₃.toNat) 0 = rest.getD (b₃.toNat + 1) 0 := by
    rw [show 5 + b₃.toNat = b₃.toNat + 1 + 4 by omega]
    rfl
  simp only [hgetS, getD_cons_zero, getD_cons_succ, length_cons,
    not_not] at hmin hmax htag htotal hlenR hlenS htagR htagS
  generalize hl : rest.getD (b₃.toNat + 1) 0 = l at hlenS
  obtain ⟨R, tail, rfl, hR, htail⟩ :=
    exists_append (show rest.length = b₃.toNat + (l.toNat + 3) by omega)
  rcases tail with _ | ⟨t, _ | ⟨l', tail⟩⟩
  iterate 2 exact absurd htail (by simp only [length_cons, length_nil]; omega)
  obtain ⟨S, last, rfl, hS, hlast⟩ := exists_append
    (show tail.length = l.toNat + 1 by simp only [length_cons] at htail; omega)
  obtain ⟨hashType, rfl⟩ := length_eq_one_iff.mp hlast
  rw [← hR, getD_append_right _ _ _ _ (Nat.le_add_right _ _), Nat.add_sub_cancel_left] at hl
  rw [← hR, getD_append_right _ _ _ _ le_rfl, Nat.sub_self] at htagS
  change l' = l at hl
  change t = 2 at htagS
  refine ⟨R, S, hashType, ?_, by omega⟩
  have htotal' : b₁ = .ofNat (R.length + S.length + 4) := by
    rw [← UInt8.ofNat_toNat (x := b₁), htotal]
    congr 1
    omega
  rw [form, hR, hS, UInt8.ofNat_toNat, UInt8.ofNat_toNat, htag, htagR, htagS, hl, ← hS, ← hR,
    ← htotal']

end

def strip (R : Bytes) : Bytes := R.dropWhile fun b => b = 0

theorem get_append (pre : Bytes) (b : UInt8) (post : Bytes) :
    get (pre ++ b :: post) pre.length = .ok b := by
  rw [get, getElem?_append_right le_rfl, Nat.sub_self]
  rfl

theorem expectByte_append (pre : Bytes) (tag : UInt8) (post : Bytes) :
    expectByte (pre ++ tag :: post) pre.length tag = .ok (pre.length + 1) := by
  have hend : pre.length ≠ (pre ++ tag :: post).length := by
    rw [length_append, length_cons]
    omega
  rw [expectByte, if_neg hend, get_append]
  exact if_neg (fun hne => hne rfl)

theorem nextByte_append (pre : Bytes) (b : UInt8) (post : Bytes) :
    nextByte (pre ++ b :: post) pre.length = .ok (b.toNat, pre.length + 1) := by
  have hend : pre.length ≠ (pre ++ b :: post).length := by
    rw [length_append, length_cons]
    omega
  rw [nextByte, if_neg hend, get_append]
  rfl

theorem short_length (h : n < 0x80) : ¬n &&& 0x80 ≠ 0 := by
  have hall : ∀ n < 0x80, n &&& 0x80 = 0 := by decide
  exact not_not.mpr (hall n h)

theorem readInteger_short (pre : Bytes) (hR : R.length < 0x80) (post : Bytes)
    (hinput : pre.length + R.length + post.length < 2 ^ 62) :
    readInteger (pre ++ 0x02 :: UInt8.ofNat R.length :: (R ++ post)) pre.length =
      .ok (pre.length + 2, R.length, pre.length + 2 + R.length) := by
  have hlength : (pre ++ 0x02 :: UInt8.ofNat R.length :: (R ++ post)).length =
      pre.length + R.length + post.length + 2 := by
    simp only [length_append, length_cons]
    omega
  have hnext : nextByte (pre ++ 0x02 :: UInt8.ofNat R.length :: (R ++ post)) (pre.length + 1) =
      .ok (R.length, pre.length + 2) := by
    have happend := nextByte_append (pre ++ [0x02]) (UInt8.ofNat R.length) (R ++ post)
    rw [append_assoc, length_append, toNat_ofNat_of_lt (by omega)] at happend
    exact happend
  have hsub : sub (pre.length + R.length + post.length + 2) (pre.length + 2) =
      R.length + post.length := by
    rw [sub_eq (by omega) (by omega)]
    omega
  have hsum : add (pre.length + 2) R.length = pre.length + 2 + R.length := add_eq (by omega)
  rw [readInteger, expectByte_append, ok_bind, hnext, ok_bind]
  dsimp only
  rw [integerLength, if_neg (short_length hR), ok_bind]
  dsimp only
  rw [hlength, hsub, hsum, if_neg (by omega)]

theorem readSequence_short (h : total < 0x80) (post : Bytes) :
    readSequence (0x30 :: .ofNat total :: post) = .ok 2 := by
  have hexpect := expectByte_append [] 0x30 (.ofNat total :: post)
  have hnext := nextByte_append [0x30] (.ofNat total) post
  rw [toNat_ofNat_of_lt (by omega)] at hnext
  simp only [nil_append, singleton_append, length_nil, length_singleton] at hexpect hnext
  rw [readSequence, hexpect, ok_bind, hnext, ok_bind]
  exact if_neg (short_length h)

theorem skipZeroes_append (pre R post : Bytes) :
    skipZeroes (pre ++ (R ++ post)) R.length pre.length =
      .ok ((strip R).length, (pre ++ R.takeWhile fun b => b = 0).length) := by
  induction R generalizing pre with
  | nil =>
    rw [takeWhile_nil, append_nil]
    rfl
  | cons b R ih =>
    rw [length_cons, skipZeroes, cons_append, get_append, ok_bind]
    by_cases hb : b = 0
    · have hrest := ih (pre ++ [b])
      simp only [append_assoc, length_append, singleton_append,
        length_singleton] at hrest
      simp only [if_pos hb, strip, dropWhile_cons, takeWhile_cons, decide_eq_true hb,
        if_true]
      rw [hrest, length_append, strip]
    · simp [if_neg hb, strip, decide_eq_false hb]

theorem strip_split (R : Bytes) : (R.takeWhile fun b => b = 0) ++ strip R = R :=
  takeWhile_append_dropWhile

theorem copyValue_append (pre R post : Bytes) :
    copyValue (pre ++ (R ++ post)) pre.length R.length =
      .ok (if (strip R).length > 32 then none
        else some (replicate (32 - (strip R).length) 0 ++ strip R)) := by
  have hsplit : pre ++ (R ++ post) = (pre ++ R.takeWhile fun b => b = 0) ++ (strip R ++ post) := by
    conv_lhs => rw [← strip_split R]
    simp
  rw [copyValue, skipZeroes_append, ok_bind]
  dsimp only
  by_cases hlong : (strip R).length > 32
  · rw [if_pos hlong, if_pos hlong]
  · have hroom : ¬(pre ++ (R ++ post)).length <
        (pre ++ R.takeWhile fun b => b = 0).length + (strip R).length := by
      rw [hsplit]
      simp only [length_append]
      omega
    rw [if_neg hlong, if_neg hlong, if_neg hroom, hsplit, drop_left, take_left]

theorem beValue_zeroes (h : ∀ b ∈ zeroes, b = 0) (R : Bytes) :
    beValue (zeroes ++ R) = beValue R := by
  induction zeroes with
  | nil => rfl
  | cons b zeroes ih =>
    rw [cons_append, beValue_cons, h b mem_cons_self, UInt8.toNat_zero, zero_mul,
      zero_add, ih fun c hc => h c (mem_cons_of_mem _ hc)]

theorem beValue_strip (R : Bytes) : beValue (strip R) = beValue R := by
  conv_rhs => rw [← strip_split R]
  refine (beValue_zeroes (fun b hb => ?_) (strip R)).symm
  have hzero := mem_takeWhile_imp (p := fun b : UInt8 => decide (b = 0)) hb
  exact of_decide_eq_true hzero

theorem order_le_of_long (h : (strip R).length > 32) : order ≤ beValue R := by
  rw [← beValue_strip]
  have hhead := head?_dropWhile_not (fun b : UInt8 => decide (b = 0)) R
  rw [← strip] at hhead
  cases hstrip : strip R with
  | nil =>
    rw [hstrip] at h
    exact absurd h (by decide)
  | cons b rest =>
    rw [hstrip] at h hhead
    have hb : b ≠ 0 := of_decide_eq_false hhead
    have hpos : 0 < b.toNat := pos_of_ne_zero fun hzero => hb (UInt8.toNat_inj.mp hzero)
    have hpow : 256 ^ 32 ≤ 256 ^ rest.length :=
      Nat.pow_le_pow_right (by decide) (Nat.le_of_succ_le_succ h)
    have hmul : 1 * 256 ^ rest.length ≤ b.toNat * 256 ^ rest.length := Nat.mul_le_mul_right _ hpos
    have horder : order ≤ 256 ^ 32 := by decide
    rw [beValue_cons]
    omega

def scalars (r s : Nat) : Nat × Nat := if r < order ∧ s < order then (r, s) else (0, 0)

def half (R : Bytes) : Option Bytes :=
  if (strip R).length > 32 then none
  else some (replicate (32 - (strip R).length) 0 ++ strip R)

theorem half_cases (R : Bytes) :
    (half R = none ∧ order ≤ beValue R) ∨ ∃ r, half R = some r ∧ beValue r = beValue R := by
  by_cases hlong : (strip R).length > 32
  · exact .inl ⟨if_pos hlong, order_le_of_long hlong⟩
  · refine .inr ⟨_, if_neg hlong, ?_⟩
    rw [beValue_zeroes fun b hb => eq_of_mem_replicate hb, beValue_strip]

theorem sequence_form (hashType : UInt8) :
    (form R S hashType).dropLast = 0x30 :: .ofNat (R.length + S.length + 4) :: 0x02 ::
      .ofNat R.length :: (R ++ 0x02 :: .ofNat S.length :: (S ++ [])) := by
  have hconcat : form R S hashType = (0x30 :: .ofNat (R.length + S.length + 4) :: 0x02 ::
      .ofNat R.length :: (R ++ 0x02 :: .ofNat S.length :: (S ++ []))) ++ [hashType] := by
    simp [form]
  rw [hconcat, dropLast_concat]

theorem parseDerLax_form (hashType : UInt8) (h : R.length + S.length + 7 ≤ 73) :
    parseDerLax (form R S hashType).dropLast = .ok (scalars (beValue R) (beValue S)) := by
  rw [sequence_form]
  generalize htotal : R.length + S.length + 4 = total
  generalize hpost : (0x02 :: .ofNat S.length :: (S ++ []) : Bytes) = post
  have hlength : post.length = S.length + 2 := by
    rw [← hpost]
    simp
  have hsequence := readSequence_short (show total < 0x80 by omega)
    (0x02 :: .ofNat R.length :: (R ++ post))
  have hR : readInteger (0x30 :: .ofNat total :: 0x02 :: .ofNat R.length :: (R ++ post)) 2 =
      .ok (4, R.length, 4 + R.length) :=
    readInteger_short [0x30, .ofNat total] (by omega) post
      (by simp only [length_cons, length_nil]; omega)
  have hcopyR : copyValue (0x30 :: .ofNat total :: 0x02 :: .ofNat R.length :: (R ++ post))
      4 R.length = .ok (half R) :=
    copyValue_append [0x30, .ofNat total, 0x02, .ofNat R.length] R post
  have hS : readInteger (0x30 :: .ofNat total :: 0x02 :: .ofNat R.length :: (R ++ post))
      (4 + R.length) = .ok (6 + R.length, S.length, 6 + R.length + S.length) := by
    have hread := readInteger_short
      (0x30 :: .ofNat total :: 0x02 :: .ofNat R.length :: R) (show S.length < 0x80 by omega)
      [] (by simp only [length_cons, length_nil]; omega)
    rw [hpost] at hread
    simp only [length_cons, cons_append] at hread
    rw [show 4 + R.length = R.length + 1 + 1 + 1 + 1 by omega, hread,
      show R.length + 1 + 1 + 1 + 1 + 2 = 6 + R.length by omega]
  have hcopyS : copyValue (0x30 :: .ofNat total :: 0x02 :: .ofNat R.length :: (R ++ post))
      (6 + R.length) S.length = .ok (half S) := by
    have hcopy := copyValue_append (0x30 :: .ofNat total :: 0x02 :: .ofNat R.length ::
      (R ++ [0x02, .ofNat S.length])) S []
    simp only [length_cons, length_append, length_nil, cons_append,
      append_assoc, nil_append] at hcopy
    rw [← hpost, show 6 + R.length = R.length + (0 + 1 + 1) + 1 + 1 + 1 + 1 by omega]
    exact hcopy
  rw [parseDerLax, hsequence, ok_bind, hR, ok_bind]
  dsimp only
  rw [hS, ok_bind]
  dsimp only
  rw [hcopyR, ok_bind, hcopyS, ok_bind]
  rcases half_cases R with ⟨hnone, hle⟩ | ⟨r, hr, hvalue⟩
  · rw [hnone, scalars, if_neg fun hlt => absurd hlt.1 (not_lt.mpr hle)]
  · rcases half_cases S with ⟨hnone, hle⟩ | ⟨s, hs, hvalue'⟩
    · rw [hr, hnone, scalars, if_neg fun hlt => absurd hlt.2 (not_lt.mpr hle)]
    · rw [hr, hs, scalars]
      dsimp only
      rw [parseCompact, hvalue, hvalue']
      split
      · rfl
      · rfl

structure Strict (sig R S : Bytes) (hashType : UInt8) : Prop where
  minimal_R : Minimal R
  minimal_S : Minimal S
  encoded : sig = tlv 0x30 (tlv 0x02 R ++ tlv 0x02 S) ++ [hashType]
  size : 9 ≤ sig.length ∧ sig.length ≤ 73

theorem tlv_form (hashType : UInt8) (h : R.length + S.length + 4 < 0x80) :
    tlv 0x30 (tlv 0x02 R ++ tlv 0x02 S) ++ [hashType] = form R S hashType := by
  rw [tlv_short 0x02 rfl (by omega), tlv_short 0x02 rfl (by omega)]
  have hlength : ((0x02 :: .ofNat R.length :: R) ++ (0x02 :: .ofNat S.length :: S)).length =
      R.length + S.length + 4 := by
    simp only [length_append, length_cons]
    omega
  rw [tlv_short 0x30 hlength h]
  simp [form]

theorem Strict.form (h : Strict sig R S hashType) :
    sig = form R S hashType ∧ R.length + S.length + 7 ≤ 73 := by
  have hR := length_lt_tlv 0x02 R
  have hS := length_lt_tlv 0x02 S
  have hbody := length_lt_tlv 0x30 (tlv 0x02 R ++ tlv 0x02 S)
  have hsize := h.size.2
  rw [h.encoded, length_append, length_singleton] at hsize
  rw [length_append] at hbody
  have heq := h.encoded.trans (tlv_form hashType (by omega))
  refine ⟨heq, ?_⟩
  rw [← length_form R S hashType, ← heq]
  exact h.size.2

theorem strictBytes_iff (sig : Bytes) : StrictBytes sig ↔ ∃ R S hashType, Strict sig R S hashType := by
  constructor
  · intro h
    obtain ⟨R, S, hashType, rfl, hsize⟩ := exists_form h
    obtain ⟨hR, hS⟩ := (strictBytes_form hashType hsize).mp h
    refine ⟨R, S, hashType, minimal_of_shortForm hR, minimal_of_shortForm hS,
      (tlv_form hashType (by omega)).symm, ?_⟩
    exact ⟨not_lt.mp h.1, not_lt.mp h.2.1⟩
  · rintro ⟨R, S, hashType, h⟩
    obtain ⟨rfl, hsize⟩ := h.form
    exact (strictBytes_form hashType hsize).mpr
      ⟨shortForm_of_minimal h.minimal_R, shortForm_of_minimal h.minimal_S⟩

abbrev valtype := {vch : Bytes // vch.length < 2 ^ 63}

/-- The strict test and the lax parser read inside of their input only. The test accepts exactly the
strict encodings, and of these the parser reads the two integers as scalars. -/
theorem signature_encodings_consistent :
    (∀ sig : Bytes, (isValidSignatureEncoding sig).isSome = true ∧
      (isValidSignatureEncoding sig = some true ↔ ∃ R S hashType, Strict sig R S hashType)) ∧
    (∀ sig R S hashType, Strict sig R S hashType →
      parseDerLax sig.dropLast = .ok (scalars (beValue R) (beValue S))) ∧
    ∀ input : valtype, parseDerLax input.1 ≠ .error .outOfRange := by
  refine ⟨fun sig => ?_, fun sig R S hashType h => ?_, fun input hout => ?_⟩
  · obtain ⟨b, hb, hiff⟩ := decides_isValidSignatureEncoding sig
    rw [hb, ← strictBytes_iff, ← hiff]
    exact ⟨rfl, Option.some_inj⟩
  · obtain ⟨rfl, hsize⟩ := h.form
    exact parseDerLax_form hashType hsize
  · have hends := parseDerLax_ends input.2
    rw [hout] at hends
    exact hends rfl

def large : Bytes := 0 :: replicate 32 0xFF

/-- Neither integer has more than 32 significant bytes, and yet two zeroes are read because one is
not below the order. -/
theorem large_integer_read_as_zeroes :
    Strict (form large [1] 1) large [1] 1 ∧ (strip large).length = 32 ∧ (strip [1]).length = 1 ∧
      beValue large ≠ 0 ∧ parseDerLax (form large [1] 1).dropLast = .ok (0, 0) := by
  have hlarge : ShortForm large := ⟨by decide, by decide, by decide⟩
  have hone : ShortForm [1] := ⟨by decide, by decide, by decide⟩
  have hscalars : scalars (beValue large) (beValue [1]) = (0, 0) := by decide +kernel
  refine ⟨⟨minimal_of_shortForm hlarge, minimal_of_shortForm hone, ?_, by decide⟩, by decide,
    by decide, by decide +kernel, ?_⟩
  · exact (tlv_form 1 (by decide)).symm
  · rw [parseDerLax_form 1 (by decide), hscalars]

end Utsuite.SigEncoding
