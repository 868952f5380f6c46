import Utsuite.Script
import Utsuite.VarInt

namespace Utsuite.Compressor

open ByteWords Transaction VarInt List
open Script hiding Code

def COIN : Nat := 100000000

def MAX_MONEY : Nat := 21000000 * COIN

def stripZeros : Nat → Nat → Nat → Nat × Nat
  | 0, n, e => (n, e)
  | rounds + 1, n, e => if n % 10 = 0 then stripZeros rounds (n / 10) (e + 1) else (n, e)

def compressAmount (n : Nat) : Nat :=
  if n = 0 then 0
  else
    let (n, e) := stripZeros 9 n 0
    if e < 9 then
      let d := n % 10
      let n := n / 10
      (1 + (n * 9 + d - 1) * 10 + e) % 2 ^ 64
    else (1 + (n - 1) * 10 + 9) % 2 ^ 64

def decompressAmount (x : Nat) : Nat :=
  if x = 0 then 0
  else
    let x := x - 1
    let e := x % 10
    let x := x / 10
    let n :=
      if e < 9 then
        let d := x % 9 + 1
        let x := x / 9
        x * 10 + d
      else x + 1
    n * 10 ^ e % 2 ^ 64

def uint64 (n : Nat) : Option Nat := if n < 2 ^ 64 then some n else none

def uint64Sub (a b : Nat) : Option Nat := if b ≤ a then some (a - b) else none

theorem uint64_of_lt (h : n < 2 ^ 64) : uint64 n = some n := if_pos h

theorem uint64Sub_of_le (h : b ≤ a) : uint64Sub a b = some (a - b) := if_pos h

/-- The same function with every operation of `uint64_t` checked. `none` stands for an overflow or
for the failed assertion. -/
def compressAmountChecked (n : Nat) : Option Nat :=
  if n = 0 then some 0
  else
    let (n, e) := stripZeros 9 n 0
    if e < 9 then do
      let d := n % 10
      guard (1 ≤ d ∧ d ≤ 9)
      let n := n / 10
      let sum ← uint64 ((← uint64 (n * 9)) + d)
      let product ← uint64 ((← uint64Sub sum 1) * 10)
      uint64 ((← uint64 (1 + product)) + e)
    else do
      let product ← uint64 ((← uint64Sub n 1) * 10)
      uint64 ((← uint64 (1 + product)) + 9)

def scale : Nat → Nat → Option Nat
  | 0, n => some n
  | e + 1, n => do scale e (← uint64 (n * 10))

def decompressAmountChecked (x : Nat) : Option Nat :=
  if x = 0 then some 0
  else
    let x := x - 1
    let e := x % 10
    let x := x / 10
    if e < 9 then do
      let d := x % 9 + 1
      let x := x / 9
      scale e (← uint64 ((← uint64 (x * 10)) + d))
    else do scale e (← uint64 (x + 1))

def decompressed (x : Nat) : Nat :=
  if x = 0 then 0
  else
    let e := (x - 1) % 10
    let x := (x - 1) / 10
    (if e < 9 then x / 9 * 10 + (x % 9 + 1) else x + 1) * 10 ^ e

/-- An amount is given by the digits `m` and the at most nine zeros that follow them. -/
def Stripped (m e : Nat) : Prop := m ≠ 0 ∧ e ≤ 9 ∧ (e < 9 → m % 10 ≠ 0)

def amountCode (m e : Nat) : Nat :=
  if e < 9 then 1 + (m / 10 * 9 + m % 10 - 1) * 10 + e else 1 + (m - 1) * 10 + 9

theorem exists_amountCode (h : x ≠ 0) : ∃ m e, Stripped m e ∧ x = amountCode m e := by
  let e := (x - 1) % 10
  let y := (x - 1) / 10
  refine ⟨if e < 9 then y / 9 * 10 + (y % 9 + 1) else y + 1, e, ⟨?_, ?_, ?_⟩, ?_⟩
  · split <;> omega
  · omega
  · intro he
    rw [if_pos he]
    omega
  · simp only [amountCode, e, y]
    split <;> omega

theorem stripZeros_mul (k : Nat) (he : e ≤ rounds) (hm : e < rounds → m % 10 ≠ 0) :
    stripZeros rounds (m * 10 ^ e) k = (m, k + e) := by
  induction rounds generalizing e k with
  | zero => simp [stripZeros, Nat.le_zero.mp he]
  | succ rounds ih =>
    cases e with
    | zero => simp [stripZeros, hm]
    | succ e =>
      rw [pow_succ, ← mul_assoc, stripZeros, if_pos (Nat.mul_mod_left _ _),
        Nat.mul_div_cancel _ (by decide), ih (k + 1) (by omega) (fun h => hm (by omega)),
        add_assoc, add_comm 1]

theorem exists_stripped (h : n ≠ 0) : ∃ m e, Stripped m e ∧ n = m * 10 ^ e := by
  suffices ∀ rounds, ∃ m e, m ≠ 0 ∧ e ≤ rounds ∧ (e < rounds → m % 10 ≠ 0) ∧ n = m * 10 ^ e by
    obtain ⟨m, e, h₁, h₂, h₃, hn⟩ := this 9
    exact ⟨m, e, ⟨h₁, h₂, h₃⟩, hn⟩
  intro rounds
  induction rounds with
  | zero => exact ⟨n, 0, h, le_rfl, by simp, by simp⟩
  | succ rounds ih =>
    obtain ⟨m, e, hm, he, hlast, hn⟩ := ih
    by_cases hten : e = rounds ∧ m % 10 = 0
    · refine ⟨m / 10, e + 1, by omega, by omega, by omega, ?_⟩
      rw [hn, pow_succ', ← mul_assoc, Nat.div_mul_cancel (Nat.dvd_of_mod_eq_zero hten.2)]
    · exact ⟨m, e, hm, by omega, by omega, hn⟩

theorem scale_eq (h : n * 10 ^ e < 2 ^ 64) : scale e n = some (n * 10 ^ e) := by
  induction e generalizing n with
  | zero => simp [scale]
  | succ e ih =>
    rw [pow_succ', ← mul_assoc] at h ⊢
    have hn : n * 10 < 2 ^ 64 :=
      (Nat.le_mul_of_pos_right _ (Nat.pow_pos (by decide))).trans_lt h
    rw [scale, uint64, if_pos hn]
    exact ih h

theorem compress_stripped (h : Stripped m e) (hmax : m * 10 ^ e ≤ MAX_MONEY) :
    compressAmountChecked (m * 10 ^ e) = some (amountCode m e) ∧
      compressAmount (m * 10 ^ e) = amountCode m e := by
  obtain ⟨hm, he, hlast⟩ := h
  have hpos : m * 10 ^ e ≠ 0 := Nat.mul_ne_zero hm (Nat.pow_pos (by decide)).ne'
  have hle : m ≤ 2100000000000000 := (Nat.le_mul_of_pos_right m (Nat.pow_pos (by decide))).trans hmax
  rw [compressAmountChecked, compressAmount, amountCode, if_neg hpos, if_neg hpos,
    stripZeros_mul 0 he hlast, zero_add]
  dsimp only
  split
  · rename_i hlt
    have hdigit := hlast hlt
    have hd : 1 ≤ m % 10 ∧ m % 10 ≤ 9 := by omega
    have hq : m / 10 ≤ 210000000000000 := by omega
    generalize m / 10 = q, m % 10 = d at hd hq
    clear hmax hlast hdigit hpos
    constructor
    · simp (disch := omega) only [guard, if_pos hd, uint64_of_lt, uint64Sub_of_le, pure_bind, Option.bind_some,
        Option.bind_eq_bind]
    · omega
  · constructor
    · simp (disch := omega) only [uint64_of_lt, uint64Sub_of_le, Option.bind_some, Option.bind_eq_bind]
    · omega

theorem decompressed_amountCode (h : Stripped m e) :
    decompressed (amountCode m e) = m * 10 ^ e := by
  obtain ⟨hm, he, hlast⟩ := h
  have hpos : amountCode m e ≠ 0 := by
    rw [amountCode]
    split <;> omega
  have hexp : (amountCode m e - 1) % 10 = e := by
    rw [amountCode]
    split <;> omega
  simp only [decompressed, if_neg hpos, hexp]
  congr 1
  split
  · rename_i hlt
    have hdigit := hlast hlt
    rw [amountCode, if_pos hlt]
    omega
  · rename_i hlt
    rw [amountCode, if_neg hlt]
    omega

theorem decompress_exact (hmax : decompressed x ≤ MAX_MONEY) :
    decompressAmountChecked x = some (decompressed x) ∧ decompressAmount x = decompressed x := by
  have hlt : decompressed x < 2 ^ 64 := hmax.trans_lt (by decide)
  by_cases hx : x = 0
  · subst hx
    decide
  rw [decompressed, if_neg hx] at hlt ⊢
  dsimp only at hlt ⊢
  rw [decompressAmountChecked, decompressAmount, if_neg hx, if_neg hx]
  refine ⟨?_, Nat.mod_eq_of_lt hlt⟩
  -- the product bounds the number that it is made from
  have hn := (Nat.le_mul_of_pos_right _ (Nat.pow_pos (by decide))).trans_lt hlt
  dsimp only
  split
  · rename_i he
    rw [if_pos he] at hlt hn
    have hten : (x - 1) / 10 / 9 * 10 < 2 ^ 64 := by omega
    simp only [uint64, if_pos hten, if_pos hn, Option.bind_eq_bind, Option.bind_some]
    exact scale_eq hlt
  · rename_i he
    rw [if_neg he] at hlt hn
    simp only [uint64, if_pos hn, Option.bind_eq_bind, Option.bind_some]
    exact scale_eq hlt

theorem compressAmount_lt (n : Nat) : compressAmount n < 2 ^ 64 := by
  unfold compressAmount
  split
  · decide
  · dsimp only
    split <;> exact Nat.mod_lt _ (by decide)

theorem decompressAmount_compressAmount (n : Nat) (hn : n ≤ MAX_MONEY) :
    decompressAmount (compressAmount n) = n ∧ compressAmount n < 2 ^ 64 := by
  refine ⟨?_, compressAmount_lt n⟩
  by_cases hzero : n = 0
  · subst hzero
    decide
  obtain ⟨m, e, h, rfl⟩ := exists_stripped hzero
  have hback := decompressed_amountCode h
  rw [(compress_stripped h hn).2, (decompress_exact (hback.trans_le hn)).2, hback]

/-- Compressing an amount never overflows and is undone by decompressing it. In the other direction
this holds for every code that stands for an amount in the range of money. -/
theorem amount_compression_bijective :
    (∀ n ≤ MAX_MONEY, compressAmountChecked n = some (compressAmount n) ∧
      decompressAmountChecked (compressAmount n) = some n ∧
      decompressAmount (compressAmount n) = n) ∧
    ∀ x, decompressed x ≤ MAX_MONEY →
      decompressAmountChecked x = some (decompressAmount x) ∧
      decompressAmount x = decompressed x ∧
      compressAmountChecked (decompressAmount x) = some x ∧
      compressAmount (decompressAmount x) = x := by
  constructor
  · intro n hn
    by_cases hzero : n = 0
    · subst hzero
      decide
    obtain ⟨m, e, h, rfl⟩ := exists_stripped hzero
    obtain ⟨hchecked, hcode⟩ := compress_stripped h hn
    have hback := decompressed_amountCode h
    have hexact := decompress_exact (hback.trans_le hn)
    rw [hback] at hexact
    rw [hcode]
    exact ⟨hchecked, hexact⟩
  · intro x hx
    by_cases hzero : x = 0
    · subst hzero
      decide
    obtain ⟨hchecked, hvalue⟩ := decompress_exact hx
    obtain ⟨m, e, h, rfl⟩ := exists_amountCode hzero
    rw [hvalue]
    refine ⟨hchecked, rfl, ?_⟩
    rw [decompressed_amountCode h] at hx ⊢
    exact compress_stripped h hx

section

structure Curve where
  isFullyValid : Bytes → Bool
  decompress : Bytes → Option Bytes

def Curve.Recovers (C : Curve) : Prop :=
  ∀ x y, x.length = 32 → y.length = 31 → ∀ last, C.isFullyValid (0x04 :: x ++ (y ++ [last])) = true →
    C.decompress ((0x02 ||| (last &&& 0x01)) :: x) = some (0x04 :: x ++ (y ++ [last]))

def nSpecialScripts : Nat := 6

def isToKeyID (script : CScript) : Option Bytes :=
  if script.length = 25 ∧ script[0]? = some OP_DUP ∧ script[1]? = some OP_HASH160 ∧
      script[2]? = some 20 ∧ script[23]? = some OP_EQUALVERIFY ∧ script[24]? = some OP_CHECKSIG then
    some ((script.drop 3).take 20)
  else none

def isToScriptID (script : CScript) : Option Bytes :=
  if script.length = 23 ∧ script[0]? = some OP_HASH160 ∧ script[1]? = some 20 ∧
      script[22]? = some OP_EQUAL then
    some ((script.drop 2).take 20)
  else none

variable (C : Curve)

/-- The script is taken for a key by its first bytes. Only the uncompressed form is checked to be a
point of the curve. -/
def isToPubKey (script : CScript) : Option Bytes :=
  if script.length = 35 ∧ script[0]? = some 33 ∧ script[34]? = some OP_CHECKSIG ∧
      (script[1]? = some 0x02 ∨ script[1]? = some 0x03) then
    some ((script.drop 1).take 33)
  else if script.length = 67 ∧ script[0]? = some 65 ∧ script[66]? = some OP_CHECKSIG ∧
      script[1]? = some 0x04 then
    let pubkey := (script.drop 1).take 65
    if C.isFullyValid pubkey then some pubkey else none
  else none

def compressKey (pubkey : Bytes) : Option Bytes :=
  let out := (pubkey.drop 1).take 32
  if pubkey.getD 0 0 = 0x02 ∨ pubkey.getD 0 0 = 0x03 then some (pubkey.getD 0 0 :: out)
  else if pubkey.getD 0 0 = 0x04 then some ((0x04 ||| (pubkey.getD 64 0 &&& 0x01)) :: out)
  else none

def compress (script : CScript) : Option Bytes :=
  match isToKeyID script, isToScriptID script, isToPubKey C script with
  | some keyID, _, _ => some (0x00 :: keyID)
  | none, some scriptID, _ => some (0x01 :: scriptID)
  | none, none, some pubkey => compressKey pubkey
  | none, none, none => none

def getSpecialSize (nSize : Nat) : Nat :=
  if nSize = 0 ∨ nSize = 1 then 20
  else if nSize = 2 ∨ nSize = 3 ∨ nSize = 4 ∨ nSize = 5 then 32
  else 0

def decompress (nSize : Nat) (data : Bytes) : Option CScript :=
  match nSize with
  | 0 => some (OP_DUP :: OP_HASH160 :: 20 :: data.take 20 ++ [OP_EQUALVERIFY, OP_CHECKSIG])
  | 1 => some (OP_HASH160 :: 20 :: data.take 20 ++ [OP_EQUAL])
  | 2 | 3 => some (33 :: .ofNat nSize :: data.take 32 ++ [OP_CHECKSIG])
  | 4 | 5 => (C.decompress (.ofNat (nSize - 2) :: data.take 32)).map
      fun pubkey => 65 :: pubkey ++ [OP_CHECKSIG]
  | _ => none

def serializeScript (script : CScript) : Option Bytes :=
  match compress C script with
  | some compr => some compr
  | none => (writeVarInt 4 ((script.length + nSpecialScripts) % 2 ^ 32)).map (· ++ script)

def unserializeScript (script : CScript) (s : Bytes) : Option (CScript × Bytes) := do
  let (nSize, s) ← readVarInt 4 s
  if nSize < nSpecialScripts then
    let (vch, s) ← WireFormat.front.read (getSpecialSize nSize) s
    pure ((decompress C nSize vch).getD script, s)
  else
    let (script, s) ← WireFormat.front.read (nSize - nSpecialScripts) s
    pure (script, s)

end

theorem drop_eq_cons {l : Bytes} {n : Nat} {b : UInt8} (h : l[n]? = some b) :
    l.drop n = b :: l.drop (n + 1) := by
  obtain ⟨hlt, rfl⟩ := List.getElem?_eq_some_iff.mp h
  exact drop_eq_getElem_cons hlt

theorem drop_last {l : Bytes} {n : Nat} {b : UInt8} (hlen : l.length = n + 1)
    (h : l[n]? = some b) : l.drop n = [b] := by
  rw [drop_eq_cons h, drop_eq_nil_of_le hlen.le]

theorem drop_split (l : Bytes) (n k : Nat) : l.drop n = (l.drop n).take k ++ l.drop (n + k) := by
  rw [← drop_drop, take_append_drop]

theorem length_middle {l : Bytes} {n k : Nat} (h : n + k ≤ l.length) :
    ((l.drop n).take k).length = k := by
  rw [length_take, length_drop]
  omega

theorem isToKeyID_form {script hash : CScript} (h : isToKeyID script = some hash) :
    hash.length = 20 ∧
      script = OP_DUP :: OP_HASH160 :: 20 :: hash ++ [OP_EQUALVERIFY, OP_CHECKSIG] := by
  unfold isToKeyID at h
  split at h
  · rename_i hform
    obtain ⟨hlen, h0, h1, h2, h23, h24⟩ := hform
    cases h
    have htail : script.drop 23 = [OP_EQUALVERIFY, OP_CHECKSIG] := by
      rw [drop_eq_cons h23, drop_last hlen h24]
    have hrest := (drop_split script 3 20).trans (congrArg (_ ++ ·) htail)
    refine ⟨length_middle (by omega), ?_⟩
    calc script = OP_DUP :: OP_HASH160 :: 20 :: script.drop 3 := by
          rw [← drop_eq_cons h2, ← drop_eq_cons h1, ← drop_eq_cons h0, drop_zero]
      _ = _ := congrArg (OP_DUP :: OP_HASH160 :: 20 :: ·) hrest
  · cases h

theorem isToScriptID_form {script hash : CScript} (h : isToScriptID script = some hash) :
    hash.length = 20 ∧ script = OP_HASH160 :: 20 :: hash ++ [OP_EQUAL] := by
  unfold isToScriptID at h
  split at h
  · rename_i hform
    obtain ⟨hlen, h0, h1, h22⟩ := hform
    cases h
    have hrest := (drop_split script 2 20).trans (congrArg (_ ++ ·) (drop_last hlen h22))
    refine ⟨length_middle (by omega), ?_⟩
    calc script = OP_HASH160 :: 20 :: script.drop 2 := by
          rw [← drop_eq_cons h1, ← drop_eq_cons h0, drop_zero]
      _ = _ := congrArg (OP_HASH160 :: 20 :: ·) hrest
  · cases h

theorem isToPubKey_form {C : Curve} {script pubkey : CScript}
    (h : isToPubKey C script = some pubkey) :
    (∃ header x, (header = 0x02 ∨ header = 0x03) ∧ x.length = 32 ∧ pubkey = header :: x ∧
      script = 33 :: header :: x ++ [OP_CHECKSIG]) ∨
    ∃ x y last, x.length = 32 ∧ y.length = 31 ∧ pubkey = 0x04 :: x ++ (y ++ [last]) ∧
      C.isFullyValid pubkey = true ∧ script = 65 :: pubkey ++ [OP_CHECKSIG] := by
  unfold isToPubKey at h
  split at h
  · rename_i hform
    obtain ⟨hlen, h0, h34, hheader⟩ := hform
    cases h
    obtain ⟨header, h1, hheader⟩ : ∃ header, script[1]? = some header ∧
        (header = 0x02 ∨ header = 0x03) := by
      rcases hheader with h1 | h1
      · exact ⟨_, h1, .inl rfl⟩
      · exact ⟨_, h1, .inr rfl⟩
    have hrest := (drop_split script 2 32).trans (congrArg (_ ++ ·) (drop_last hlen h34))
    refine .inl ⟨header, (script.drop 2).take 32, hheader, length_middle (by omega), ?_, ?_⟩
    · rw [drop_eq_cons h1]
      rfl
    · calc script = 33 :: header :: script.drop 2 := by
            rw [← drop_eq_cons h1, ← drop_eq_cons h0, drop_zero]
        _ = _ := congrArg (33 :: header :: ·) hrest
  · split at h
    · rename_i hform
      obtain ⟨hlen, h0, h66, h1⟩ := hform
      dsimp only at h
      split at h
      · rename_i hvalid
        cases h
        obtain ⟨last, h65⟩ : ∃ last, script[65]? = some last :=
          ⟨_, getElem?_eq_getElem (by omega)⟩
        have hrest := (drop_split script 1 65).trans (congrArg (_ ++ ·) (drop_last hlen h66))
        have hlast : (script.drop 34).take 32 = (script.drop 34).take 31 ++ [last] := by
          rw [take_add_one (i := 31), getElem?_drop, h65]
          rfl
        have hpubkey : (script.drop 1).take 65 =
            0x04 :: (script.drop 2).take 32 ++ ((script.drop 34).take 31 ++ [last]) := by
          rw [drop_eq_cons h1, take_succ_cons, ← hlast, take_add (i := 32) (j := 32),
            drop_drop]
          rfl
        refine .inr ⟨(script.drop 2).take 32, (script.drop 34).take 31, last,
          length_middle (by omega), length_middle (by omega), hpubkey, hvalid, ?_⟩
        calc script = 65 :: script.drop 1 := by rw [← drop_eq_cons h0, drop_zero]
          _ = _ := congrArg (65 :: ·) hrest
      · cases h
    · cases h

section

variable {C : Curve}

theorem and_one (b : UInt8) : b &&& 0x01 = 0 ∨ b &&& 0x01 = 1 :=
  byte_cases (p := fun b => b &&& 0x01 = 0 ∨ b &&& 0x01 = 1) (by decide +kernel) b

/-- One of six numbers, followed by the bytes from which the script can be made again. -/
inductive Special (C : Curve) (script : CScript) : Bytes → Prop
  | mk {nSize : Nat} {data : Bytes} (hsize : nSize < nSpecialScripts)
      (hlen : data.length = getSpecialSize nSize) (hdata : decompress C nSize data = some script) :
      Special C script (.ofNat nSize :: data)

theorem Special.of_keyID {script hash : CScript} (h : isToKeyID script = some hash) :
    Special C script (0x00 :: hash) := by
  obtain ⟨hlen, rfl⟩ := isToKeyID_form h
  refine Special.mk (by decide : 0 < nSpecialScripts) hlen ?_
  rw [decompress, take_of_length_le hlen.le]

theorem Special.of_scriptID {script hash : CScript} (h : isToScriptID script = some hash) :
    Special C script (0x01 :: hash) := by
  obtain ⟨hlen, rfl⟩ := isToScriptID_form h
  refine Special.mk (by decide : 1 < nSpecialScripts) hlen ?_
  rw [decompress, take_of_length_le hlen.le]

theorem Special.of_pubKey (hC : C.Recovers) (h : isToPubKey C script = some pubkey)
    (hcompr : compressKey pubkey = some compr) : Special C script compr := by
  rcases isToPubKey_form h with
    ⟨header, x, hheader, hlen, rfl, rfl⟩ | ⟨x, y, last, hx, hy, rfl, hvalid, rfl⟩
  · have hfirst : (header :: x).getD 0 0 = header := rfl
    rw [compressKey, hfirst, if_pos hheader] at hcompr
    cases hcompr
    have hout : ((header :: x).drop 1).take 32 = x := take_of_length_le hlen.le
    rw [hout]
    rcases hheader with rfl | rfl
    · refine Special.mk (by decide : 2 < nSpecialScripts) hlen ?_
      rw [decompress, take_of_length_le hlen.le]
      rfl
    · refine Special.mk (by decide : 3 < nSpecialScripts) hlen ?_
      rw [decompress, take_of_length_le hlen.le]
      rfl
  · have hout : ((0x04 :: x ++ (y ++ [last])).drop 1).take 32 = x := take_left' hx
    have hget : (0x04 :: x ++ (y ++ [last])).getD 64 0 = last := by
      have hindex : 64 = (0x04 :: x ++ y).length := by
        simp [hx, hy]
      rw [← append_assoc, getD_eq_getElem?_getD, hindex, getElem?_concat_length]
      rfl
    rw [compressKey, hout, hget, if_neg (by simp), if_pos (by simp)] at hcompr
    cases hcompr
    have hkey := hC x y hx hy last hvalid
    rcases and_one last with hbit | hbit
    · rw [hbit] at hkey ⊢
      refine Special.mk (by decide : 4 < nSpecialScripts) hx ?_
      rw [decompress, take_of_length_le hx.le]
      exact congrArg (Option.map _) hkey
    · rw [hbit] at hkey ⊢
      refine Special.mk (by decide : 5 < nSpecialScripts) hx ?_
      rw [decompress, take_of_length_le hx.le]
      exact congrArg (Option.map _) hkey

theorem compress_special (hC : C.Recovers) {script compr : CScript}
    (h : compress C script = some compr) : Special C script compr := by
  unfold compress at h
  split at h
  · rename_i hkey
    cases h
    exact Special.of_keyID hkey
  · rename_i hscript
    cases h
    exact Special.of_scriptID hscript
  · rename_i hpubkey
    exact Special.of_pubKey hC hpubkey h
  · cases h

theorem readVarInt_small (b : UInt8) (hb : b.toNat < 128) (s : Bytes) :
    readVarInt 4 (b :: s) = some (b.toNat, s) := by
  refine (readLoop_eq_some_iff 4 0 _ _ s).mpr ⟨[b], by simpa [Code] using hb, rfl, ?_⟩
  simp only [valueFrom]
  omega

theorem front_read_append (h : data.length = n) (s : Bytes) :
    WireFormat.front.read n (data ++ s) = some (data, s) := by
  subst h
  simp [WireFormat.front]

theorem Special.unserialize (h : Special C script compr) (prior : CScript) (s : Bytes) :
    unserializeScript C prior (compr ++ s) = some (script, s) := by
  cases h with
  | @mk nSize data hsize hlen hdata =>
    have hsmall : nSize < 6 := hsize
    have hbyte : (UInt8.ofNat nSize).toNat = nSize := by
      rw [UInt8.toNat_ofNat']
      omega
    unfold unserializeScript
    rw [cons_append, readVarInt_small _ (by omega), hbyte]
    dsimp
    rw [if_pos hsize, front_read_append hlen, Option.bind_some, hdata]
    rfl

theorem unserializeScript_serializeScript (hC : C.Recovers) (script : CScript)
    (hsize : script.length + nSpecialScripts < 2 ^ 32) :
    ∃ bytes, serializeScript C script = some bytes ∧
      ∀ prior s, unserializeScript C prior (bytes ++ s) = some (script, s) := by
  unfold serializeScript
  split
  · rename_i compr hcompr
    exact ⟨compr, rfl, (compress_special hC hcompr).unserialize⟩
  · rw [Nat.mod_eq_of_lt hsize]
    obtain ⟨bytes, hbytes⟩ := writeVarInt_total 4 _ (by decide) hsize
    refine ⟨bytes ++ script, by rw [hbytes]; rfl, fun prior s => ?_⟩
    unfold unserializeScript
    rw [append_assoc, readVarInt_writeVarInt 4 _ hsize bytes _ hbytes]
    dsimp only [Option.bind_eq_bind, Option.bind_some]
    rw [if_neg (by omega), Nat.add_sub_cancel, front_read_append rfl]
    rfl

theorem length_serializeScript (hlen : 67 < script.length)
    (h : serializeScript C script = some bytes) : script.length ≤ bytes.length := by
  have hkeyID : isToKeyID script = none := if_neg fun hform => by omega
  have hscriptID : isToScriptID script = none := if_neg fun hform => by omega
  have hpubKey : isToPubKey C script = none := by
    unfold isToPubKey
    rw [if_neg fun hform => by omega, if_neg fun hform => by omega]
  have hcompress : compress C script = none := by
    unfold compress
    rw [hkeyID, hscriptID, hpubKey]
  rw [serializeScript, hcompress] at h
  obtain ⟨nSize, -, rfl⟩ := Option.map_eq_some_iff.mp h
  rw [length_append]
  omega

end

section

variable (C : Curve)

def serializeTxOut (txout : CTxOut) : Option Bytes := do
  let nVal ← writeVarInt 8 (compressAmount txout.nValue.toUInt64.toNat)
  let cscript ← serializeScript C txout.scriptPubKey
  pure (nVal ++ cscript)

def unserializeTxOut (txout : CTxOut) (s : Bytes) : Option (CTxOut × Bytes) := do
  let (nVal, s) ← readVarInt 8 s
  let (scriptPubKey, s) ← unserializeScript C txout.scriptPubKey s
  pure (⟨(UInt64.ofNat (decompressAmount nVal)).toInt64, scriptPubKey⟩, s)

structure Fits (txout : CTxOut) : Prop where
  nonneg : 0 ≤ txout.nValue
  le_max : txout.nValue.toInt ≤ MAX_MONEY
  script_lt : txout.scriptPubKey.length + nSpecialScripts < 2 ^ 32

variable {C}

theorem Fits.toNat_le (h : Fits txout) : txout.nValue.toUInt64.toNat ≤ MAX_MONEY := by
  have := h.le_max
  rw [Int64.toNat_toUInt64_of_le h.nonneg, ← Int64.toNat_toInt]
  omega

theorem unserializeTxOut_serializeTxOut (hC : C.Recovers) (h : Fits txout) :
    ∃ bytes, serializeTxOut C txout = some bytes ∧
      ∀ prior s, unserializeTxOut C prior (bytes ++ s) = some (txout, s) := by
  obtain ⟨hamount, hlt⟩ := decompressAmount_compressAmount _ h.toNat_le
  obtain ⟨nVal, hnVal⟩ := writeVarInt_total 8 _ (by decide) hlt
  obtain ⟨cscript, hcscript, hread⟩ := unserializeScript_serializeScript hC _ h.script_lt
  refine ⟨nVal ++ cscript, ?_, fun prior s => ?_⟩
  · unfold serializeTxOut
    rw [hnVal, hcscript]
    rfl
  · unfold unserializeTxOut
    rw [append_assoc, readVarInt_writeVarInt 8 _ hlt nVal _ hnVal]
    dsimp
    rw [hread, hamount, UInt64.ofNat_toNat]
    rfl

theorem length_serializeTxOut (hlen : 67 < txout.scriptPubKey.length)
    (h : serializeTxOut C txout = some out) : txout.scriptPubKey.length ≤ out.length := by
  obtain ⟨nVal, -, h⟩ := Option.bind_eq_some_iff.mp h
  obtain ⟨cscript, hcscript, h⟩ := Option.bind_eq_some_iff.mp h
  cases h
  have := length_serializeScript hlen hcscript
  rw [length_append]
  omega

end

end Utsuite.Compressor
