import Mathlib.Data.Nat.ModEq
import Utsuite.ByteWords

namespace Utsuite.VarInt

open ByteWords List

def Code : Nat → Bytes → Prop
  | _, [] => False
  | len, [b] => 128 ≤ b.toNat ↔ len ≠ 0
  | len, b :: tmp => (128 ≤ b.toNat ↔ len ≠ 0) ∧ Code (len + 1) tmp

def valueFrom (n : Nat) : Bytes → Nat
  | [] => n
  | [b] => b.toNat % 128 + 128 * n
  | b :: tmp => b.toNat % 128 + 128 * (valueFrom n tmp + 1)

def value (a : Bytes) : Nat := valueFrom 0 a.reverse

def digit (n len : Nat) : UInt8 :=
  .ofNat (n &&& 0x7F) ||| if len ≠ 0 then 0x80 else 0x00

def fillTmp : Nat → Nat → Nat → Option Bytes
  | 0, _, _ => none
  | room + 1, n, len =>
    if n ≤ 0x7F then some [digit n len]
    else (fillTmp room ((n >>> 7) - 1) (len + 1)).map (digit n len :: ·)

def writeVarInt (size n : Nat) : Option Bytes :=
  (fillTmp ((size * 8 + 6) / 7) n 0).map reverse

def getSizeOfVarInt (n : Nat) : Nat :=
  if n ≤ 0x7F then 1 else getSizeOfVarInt ((n >>> 7) - 1) + 1
termination_by n
decreasing_by
  rw [Nat.shiftRight_eq_div_pow]
  omega

def readLoop (size : Nat) : Nat → Bytes → Option (Nat × Bytes)
  | _, [] => none
  | n, chData :: is =>
    let n := (n <<< 7 ||| (chData &&& 0x7F).toNat) % 2 ^ (8 * size)
    if chData &&& 0x80 ≠ 0 then readLoop size ((n + 1) % 2 ^ (8 * size)) is
    else some (n, is)

def readVarInt (size : Nat) (is : Bytes) : Option (Nat × Bytes) := readLoop size 0 is

theorem toNat_and_7f (b : UInt8) : (b &&& 0x7F).toNat = b.toNat % 128 :=
  byte_cases (p := fun b => (b &&& 0x7F).toNat = b.toNat % 128) (by decide +kernel) b

theorem and_80_ne_zero (b : UInt8) : b &&& 0x80 ≠ 0 ↔ 128 ≤ b.toNat :=
  byte_cases (p := fun b => b &&& 0x80 ≠ 0 ↔ 128 ≤ b.toNat) (by decide +kernel) b

theorem and_7f (n : Nat) : n &&& 0x7F = n % 128 := Nat.and_two_pow_sub_one_eq_mod n 7

theorem shift_or (n : Nat) (b : UInt8) :
    n <<< 7 ||| (b &&& 0x7F).toNat = b.toNat % 128 + 128 * n := by
  have hlt : b.toNat % 128 < 2 ^ 7 := Nat.mod_lt _ (by decide)
  rw [toNat_and_7f, ← Nat.shiftLeft_add_eq_or_of_lt hlt, Nat.shiftLeft_eq]
  omega

theorem or_80 (b : UInt8) (h : b.toNat < 128) : (b ||| 0x80).toNat = b.toNat + 128 :=
  byte_cases (p := fun b => b.toNat < 128 → (b ||| 0x80).toNat = b.toNat + 128)
    (by decide +kernel) b h

theorem toNat_digit (n len : Nat) :
    (digit n len).toNat = n % 128 + if len ≠ 0 then 128 else 0 := by
  have hlow : (UInt8.ofNat (n % 128)).toNat = n % 128 := by
    rw [UInt8.toNat_ofNat']
    omega
  unfold digit
  rw [and_7f]
  split
  · rw [or_80 _ (by omega), hlow]
  · simpa using hlow

theorem digit_tag (n len : Nat) : 128 ≤ (digit n len).toNat ↔ len ≠ 0 := by
  rw [toNat_digit]
  split <;> omega

theorem digit_mod (n len : Nat) : (digit n len).toNat % 128 = n % 128 := by
  rw [toNat_digit]
  split <;> omega

theorem digit_unique (b : UInt8) (n len : Nat) (htag : 128 ≤ b.toNat ↔ len ≠ 0)
    (hmod : b.toNat % 128 = n % 128) : digit n len = b := by
  apply UInt8.toNat_inj.mp
  have := b.toNat_lt
  rw [toNat_digit]
  split <;> omega

theorem code_cons (h : tmp ≠ []) :
    Code len (b :: tmp) ↔ (128 ≤ b.toNat ↔ len ≠ 0) ∧ Code (len + 1) tmp := by
  cases tmp with
  | nil => exact absurd rfl h
  | cons b' tmp => rfl

theorem valueFrom_cons (h : tmp ≠ []) :
    valueFrom n (b :: tmp) = b.toNat % 128 + 128 * (valueFrom n tmp + 1) := by
  cases tmp with
  | nil => exact absurd rfl h
  | cons b' tmp => rfl

theorem Code.ne_nil (h : Code len tmp) : tmp ≠ [] := by
  rintro rfl
  exact h

theorem fillTmp_eq_some_iff (room n len : Nat) (tmp : Bytes) :
    fillTmp room n len = some tmp ↔
      Code len tmp ∧ valueFrom 0 tmp = n ∧ tmp.length ≤ room := by
  induction room generalizing n len tmp with
  | zero =>
    constructor
    · intro h
      cases h
    · rintro ⟨hcode, _, hlen⟩
      exact absurd (length_eq_zero_iff.mp (Nat.le_zero.mp hlen)) hcode.ne_nil
  | succ room ih =>
    rw [fillTmp]
    split
    · rename_i hn
      constructor
      · intro h
        cases h
        refine ⟨digit_tag n len, ?_, by simp⟩
        simp only [valueFrom, digit_mod]
        omega
      · rintro ⟨hcode, hval, -⟩
        match tmp with
        | [b] =>
          simp only [valueFrom] at hval
          rw [digit_unique b n len hcode (by omega)]
        | b :: b' :: tmp =>
          rw [valueFrom_cons (cons_ne_nil b' tmp)] at hval
          omega
    · rename_i hn
      rw [Nat.shiftRight_eq_div_pow, Option.map_eq_some_iff]
      constructor
      · rintro ⟨rest, hrest, rfl⟩
        obtain ⟨hcode, hval, hlen⟩ := (ih _ _ _).mp hrest
        refine ⟨(code_cons hcode.ne_nil).mpr ⟨digit_tag n len, hcode⟩, ?_, by simpa using hlen⟩
        rw [valueFrom_cons hcode.ne_nil, digit_mod, hval]
        omega
      · rintro ⟨hcode, hval, hlen⟩
        match tmp with
        | [b] =>
          simp only [valueFrom] at hval
          omega
        | b :: b' :: tmp =>
          obtain ⟨htag, hcode⟩ := hcode
          rw [valueFrom_cons (cons_ne_nil b' tmp)] at hval
          refine ⟨b' :: tmp, (ih _ _ _).mpr ⟨hcode, by omega, by simpa using hlen⟩, ?_⟩
          rw [digit_unique b n len htag (by omega)]

theorem fillTmp_isSome (room n len : Nat) (hn : n < 128 ^ (room + 1)) :
    (fillTmp (room + 1) n len).isSome := by
  induction room generalizing n len with
  | zero =>
    have : n ≤ 0x7F := by omega
    simp [fillTmp, this]
  | succ room ih =>
    rw [fillTmp]
    split
    · rfl
    · rw [Option.isSome_map, Nat.shiftRight_eq_div_pow]
      apply ih
      have : n / 2 ^ 7 < 128 ^ (room + 1) := Nat.div_lt_of_lt_mul (by omega)
      omega

theorem length_of_code (tmp : Bytes) (len : Nat) (h : Code len tmp) :
    tmp.length = getSizeOfVarInt (valueFrom 0 tmp) := by
  induction tmp generalizing len with
  | nil => exact h.elim
  | cons b tmp ih =>
    rw [getSizeOfVarInt]
    by_cases htmp : tmp = []
    · subst htmp
      rw [if_pos (by simp only [valueFrom]; omega)]
      rfl
    · rw [valueFrom_cons htmp, if_neg (by omega), Nat.shiftRight_eq_div_pow, length_cons,
        ih _ ((code_cons htmp).mp h).2]
      congr 2
      omega

theorem code_concat (len : Nat) (tmp : Bytes) (b : UInt8) (htmp : tmp ≠ []) :
    Code len (tmp ++ [b]) ↔ Code len tmp ∧ 128 ≤ b.toNat := by
  induction tmp generalizing len with
  | nil => exact absurd rfl htmp
  | cons c tmp ih =>
    rw [cons_append, code_cons (by simp)]
    by_cases hnil : tmp = []
    · subst hnil
      simp [Code]
    · rw [ih _ hnil, code_cons hnil, and_assoc]

theorem valueFrom_concat (n : Nat) (tmp : Bytes) (b : UInt8) (htmp : tmp ≠ []) :
    valueFrom n (tmp ++ [b]) = valueFrom (b.toNat % 128 + 128 * n + 1) tmp := by
  induction tmp with
  | nil => exact absurd rfl htmp
  | cons c tmp ih =>
    rw [cons_append, valueFrom_cons (by simp)]
    by_cases hnil : tmp = []
    · subst hnil
      rfl
    · rw [ih hnil, valueFrom_cons hnil]

theorem valueFrom_congr (h : n ≡ n' [MOD M]) (tmp : Bytes) :
    valueFrom n tmp ≡ valueFrom n' tmp [MOD M] := by
  induction tmp with
  | nil => exact h
  | cons b tmp ih =>
    by_cases hnil : tmp = []
    · subst hnil
      exact (h.mul_left 128).add_left _
    · rw [valueFrom_cons hnil, valueFrom_cons hnil]
      exact ((ih.add_right 1).mul_left 128).add_left _

theorem code_front (hcode : Code 0 tmp) (his : chData :: is = tmp.reverse ++ rest) :
    (tmp = [chData] ∧ is = rest ∧ chData.toNat < 128) ∨
      ∃ low, tmp = low ++ [chData] ∧ Code 0 low ∧ is = low.reverse ++ rest ∧
        128 ≤ chData.toNat := by
  rcases eq_nil_or_concat tmp with rfl | ⟨low, b, rfl⟩
  · exact hcode.elim
  rw [concat_eq_append] at hcode his
  rw [reverse_append] at his
  obtain ⟨rfl, rfl⟩ := cons.inj his
  by_cases hnil : low = []
  · subst hnil
    exact .inl ⟨rfl, rfl, by simpa [Code] using hcode⟩
  · obtain ⟨hlow, hcont⟩ := (code_concat 0 low _ hnil).mp hcode
    exact .inr ⟨low, concat_eq_append, hlow, rfl, hcont⟩

theorem readLoop_eq_some_iff (size n : Nat) (is : Bytes) (m : Nat) (rest : Bytes) :
    readLoop size n is = some (m, rest) ↔
      ∃ tmp, Code 0 tmp ∧ is = tmp.reverse ++ rest ∧
        m = valueFrom n tmp % 2 ^ (8 * size) := by
  induction is generalizing n with
  | nil =>
    constructor
    · intro h
      cases h
    · rintro ⟨tmp, hcode, his, -⟩
      have : tmp = [] := by simpa using (append_eq_nil_iff.mp his.symm).1
      exact absurd this hcode.ne_nil
  | cons chData is ih =>
    rw [readLoop]
    simp only [shift_or, and_80_ne_zero]
    generalize hM : 2 ^ (8 * size) = M at ih ⊢
    split
    · rename_i hcont
      have hstep : ((chData.toNat % 128 + 128 * n) % M + 1) % M ≡
          chData.toNat % 128 + 128 * n + 1 [MOD M] :=
        (Nat.mod_modEq _ M).trans ((Nat.mod_modEq _ M).add_right 1)
      rw [ih]
      constructor
      · rintro ⟨tmp, hcode, rfl, rfl⟩
        refine ⟨tmp ++ [chData], (code_concat 0 tmp chData hcode.ne_nil).mpr ⟨hcode, hcont⟩,
          by simp, ?_⟩
        rw [valueFrom_concat _ _ _ hcode.ne_nil]
        exact valueFrom_congr hstep tmp
      · rintro ⟨tmp, hcode, his, rfl⟩
        rcases code_front hcode his with ⟨-, -, hlt⟩ | ⟨low, rfl, hlow, rfl, -⟩
        · omega
        · refine ⟨low, hlow, rfl, ?_⟩
          rw [valueFrom_concat _ _ _ hlow.ne_nil]
          exact (valueFrom_congr hstep low).symm
    · rename_i hlast
      constructor
      · intro h
        cases h
        exact ⟨[chData], by simpa [Code] using hlast, rfl, rfl⟩
      · rintro ⟨tmp, hcode, his, rfl⟩
        rcases code_front hcode his with ⟨rfl, rfl, -⟩ | ⟨low, -, -, -, hcont⟩
        · rfl
        · exact absurd hcont hlast

theorem writeVarInt_eq_some_iff (size n : Nat) (bytes : Bytes) :
    writeVarInt size n = some bytes ↔
      Code 0 bytes.reverse ∧ value bytes = n ∧ bytes.length ≤ (size * 8 + 6) / 7 := by
  unfold writeVarInt
  rw [Option.map_eq_some_iff]
  constructor
  · rintro ⟨tmp, htmp, rfl⟩
    simpa [value] using (fillTmp_eq_some_iff _ _ _ _).mp htmp
  · intro h
    refine ⟨bytes.reverse, (fillTmp_eq_some_iff _ _ _ _).mpr ?_, bytes.reverse_reverse⟩
    simpa [value] using h

theorem writeVarInt_total (size n : Nat) (hsize : 0 < size) (hn : n < 2 ^ (8 * size)) :
    ∃ bytes, writeVarInt size n = some bytes := by
  have hroom : (size * 8 + 6) / 7 = (size * 8 - 1) / 7 + 1 := by omega
  have hfit : n < 128 ^ ((size * 8 - 1) / 7 + 1) :=
    calc n < 2 ^ (8 * size) := hn
      _ ≤ 2 ^ (7 * ((size * 8 - 1) / 7 + 1)) := Nat.pow_le_pow_right (by decide) (by omega)
      _ = 128 ^ ((size * 8 - 1) / 7 + 1) := by rw [Nat.pow_mul]
  obtain ⟨tmp, htmp⟩ := Option.isSome_iff_exists.mp (fillTmp_isSome _ n 0 hfit)
  exact ⟨tmp.reverse, by rw [writeVarInt, hroom, htmp]; rfl⟩

theorem writeVarInt_length (size n : Nat) (bytes : Bytes) (h : writeVarInt size n = some bytes) :
    bytes.length = getSizeOfVarInt n := by
  obtain ⟨hcode, hval, -⟩ := (writeVarInt_eq_some_iff size n bytes).mp h
  rw [← length_reverse, length_of_code _ 0 hcode]
  exact congrArg getSizeOfVarInt hval

theorem readVarInt_writeVarInt (size n : Nat) (hn : n < 2 ^ (8 * size)) (bytes suffix : Bytes)
    (h : writeVarInt size n = some bytes) :
    readVarInt size (bytes ++ suffix) = some (n, suffix) := by
  obtain ⟨hcode, hval, -⟩ := (writeVarInt_eq_some_iff size n bytes).mp h
  refine (readLoop_eq_some_iff size 0 _ n suffix).mpr ⟨bytes.reverse, hcode, by simp, ?_⟩
  exact (Nat.mod_eq_of_lt hn).symm.trans (congrArg (· % 2 ^ (8 * size)) hval.symm)

theorem writeVarInt_code (size : Nat) (hsize : 0 < size) (bytes : Bytes)
    (hcode : Code 0 bytes.reverse) (hval : value bytes < 2 ^ (8 * size)) :
    writeVarInt size (value bytes) = some bytes := by
  obtain ⟨out, hout⟩ := writeVarInt_total size (value bytes) hsize hval
  have hlen : bytes.length = out.length := by
    rw [writeVarInt_length _ _ _ hout, ← length_reverse]
    exact length_of_code _ 0 hcode
  have hroom := ((writeVarInt_eq_some_iff size _ out).mp hout).2.2
  exact (writeVarInt_eq_some_iff size _ bytes).mpr ⟨hcode, rfl, hlen ▸ hroom⟩

/-- Every number of the type is read back from its encoding. An encoding that is read is the one
that is written exactly if its number fits into the type. -/
theorem varInt_one_to_one_iff (size : Nat) (hsize : 0 < size) :
    (∀ n, n < 2 ^ (8 * size) → ∃ bytes, writeVarInt size n = some bytes ∧
      bytes.length = getSizeOfVarInt n ∧
      ∀ suffix, readVarInt size (bytes ++ suffix) = some (n, suffix)) ∧
    ∀ is n rest, readVarInt size is = some (n, rest) →
      ∃ consumed, is = consumed ++ rest ∧
        (writeVarInt size n = some consumed ↔ value consumed < 2 ^ (8 * size)) := by
  constructor
  · intro n hn
    obtain ⟨bytes, hbytes⟩ := writeVarInt_total size n hsize hn
    exact ⟨bytes, hbytes, writeVarInt_length size n bytes hbytes,
      fun suffix => readVarInt_writeVarInt size n hn bytes suffix hbytes⟩
  · intro is n rest hread
    obtain ⟨tmp, hcode, rfl, rfl⟩ := (readLoop_eq_some_iff size 0 is n rest).mp hread
    have hvalue : value tmp.reverse = valueFrom 0 tmp := by
      unfold value
      rw [reverse_reverse]
    refine ⟨tmp.reverse, rfl, ?_⟩
    constructor
    · intro hwrite
      rw [((writeVarInt_eq_some_iff size _ _).mp hwrite).2.1]
      exact Nat.mod_lt _ (Nat.two_pow_pos _)
    · intro hlt
      rw [← hvalue, Nat.mod_eq_of_lt hlt]
      exact writeVarInt_code size hsize _ (by rwa [reverse_reverse]) hlt

theorem varInt_one_to_one_byte :
    0 < 1 ∧ ∃ consumed, [0x80, 0x7F, 0x05] = consumed ++ [0x05] ∧
      (writeVarInt 1 255 = some consumed ↔ value consumed < 2 ^ 8) :=
  ⟨by decide, (varInt_one_to_one_iff 1 (by decide)).2 [0x80, 0x7F, 0x05] 255 [0x05] (by decide)⟩

/-- The five bytes of `2 ^ 32` are read as 0 into a variable of 32 bits. -/
theorem varInt_overflow_read_as_zero :
    readVarInt 4 [0x8E, 0xFE, 0xFE, 0xFF, 0x00] = some (0, []) ∧
      writeVarInt 4 0 = some [0x00] ∧
      writeVarInt 4 0 ≠ some [0x8E, 0xFE, 0xFE, 0xFF, 0x00] := by
  decide

end Utsuite.VarInt
