import Utsuite.BitPack
import Utsuite.DumpText
import Utsuite.Transaction

namespace Utsuite.HexText

open ByteWords Transaction List
open Base58 (isspace)
open DumpText (hexStr hexmap)
open BitPack (ofDigits ofDigits_concat)

def hexDigit (c : UInt8) : Option UInt8 :=
  if 0x30 ≤ c ∧ c ≤ 0x39 then some (c - 0x30)
  else if 0x41 ≤ c ∧ c ≤ 0x46 then some (c - 0x41 + 10)
  else if 0x61 ≤ c ∧ c ≤ 0x66 then some (c - 0x61 + 10)
  else none

/-- The bytes that `ParseHex` returns. Blanks may stand before a byte, but not between its digits.
-/
def parseHex : Bytes → Bytes
  | [] => []
  | x :: psz =>
    if isspace x then parseHex psz
    else match hexDigit x with
      | none => []
      | some high =>
        match psz with
        | [] => []
        | y :: psz =>
          match hexDigit y with
          | none => []
          | some low => (high <<< 4 ||| low) :: parseHex psz

def packDigits : List UInt8 → Bytes
  | [] => []
  | [low] => [low]
  | low :: high :: digits => (low ||| high <<< 4) :: packDigits digits

def skip0x : Bytes → Bytes
  | x :: y :: psz => if x = 0x30 ∧ (y = 0x78 ∨ y = 0x58) then psz else x :: y :: psz
  | psz => psz

/-- `uint256S` reads the digits from the last one on, so a text that is too long loses its first
digits. -/
def uint256S (str : Bytes) : uint256 :=
  let psz := skip0x (str.dropWhile isspace)
  let digits := (psz.takeWhile fun c => (hexDigit c).isSome).filterMap hexDigit
  ⟨(packDigits digits.reverse ++ List.replicate 32 0).take 32, by simp⟩

def encodeHexTx (tx : CMutableTransaction) : Bytes := (transactionFormat.write tx).flatMap hexStr

theorem hexDigit_hexStr (c : UInt8) :
    ∃ x y high low, hexStr c = [x, y] ∧ isspace x = false ∧ hexDigit x = some high ∧
      hexDigit y = some low ∧ high <<< 4 ||| low = c := by
  refine ⟨_, _, c >>> 4, c &&& 15, rfl, ?_⟩
  exact byte_cases (p := fun c => isspace (hexmap.getD (c >>> 4).toNat 0) = false ∧
    hexDigit (hexmap.getD (c >>> 4).toNat 0) = some (c >>> 4) ∧
    hexDigit (hexmap.getD (c &&& 15).toNat 0) = some (c &&& 15) ∧
    (c >>> 4) <<< 4 ||| c &&& 15 = c) (by decide +kernel) c

theorem parseHex_hexStr (vch : Bytes) : parseHex (vch.flatMap hexStr) = vch := by
  induction vch with
  | nil => rfl
  | cons c vch ih =>
    obtain ⟨x, y, high, low, hstr, hspace, hx, hy, hc⟩ := hexDigit_hexStr c
    rw [List.flatMap_cons, hstr]
    change parseHex (x :: y :: vch.flatMap hexStr) = _
    rw [parseHex, if_neg (by simp [hspace]), hx]
    dsimp only
    rw [hy]
    dsimp only
    rw [hc, ih]

theorem parseHex_encodeHexTx (tx : CMutableTransaction) :
    parseHex (encodeHexTx tx) = transactionFormat.write tx := parseHex_hexStr _

def getHex (h : uint256) : Bytes := h.1.reverse.flatMap hexStr

def digitValues (digits : Bytes) : List Nat := (digits.filterMap hexDigit).map UInt8.toNat

theorem hexDigit_spec (c : UInt8) : ((hexDigit c).isSome = true → isspace c = false ∧ c ≠ 0x78 ∧ c ≠ 0x58) ∧
    ∀ d ∈ hexDigit c, d.toNat < 16 := by
  have hall := byte_cases (p := fun c => ((hexDigit c).isSome = true → isspace c = false ∧ c ≠ 0x78 ∧ c ≠ 0x58) ∧
    ((hexDigit c).all fun d => d.toNat < 16) = true) (by decide +kernel) c
  refine ⟨hall.1, fun d hd => ?_⟩
  rw [hd] at hall
  exact of_decide_eq_true hall.2

theorem toNat_pack {low high : UInt8} (hl : low.toNat < 16) (hh : high.toNat < 16) :
    (low ||| high <<< 4).toNat = high.toNat * 16 + low.toNat := by
  rw [UInt8.toNat_or, UInt8.toNat_shiftLeft]
  have : high.toNat <<< (UInt8.toNat 4 % 8) % 2 ^ 8 = 2 ^ 4 * high.toNat := by
    simp [Nat.shiftLeft_eq]
    omega
  rw [this, Nat.or_comm, ← Nat.two_pow_add_eq_or_of_lt hl]
  omega

theorem leValue_packDigits (h : ∀ d ∈ digits, d.toNat < 16) :
    leValue (packDigits digits) = ofDigits 16 (digits.reverse.map UInt8.toNat) := by
  induction digits using packDigits.induct with
  | case1 => rfl
  | case2 low => simp [packDigits, leValue, ofDigits]
  | case3 low high digits ih =>
    simp only [forall_mem_cons] at h
    rw [packDigits, leValue, ih h.2.2, toNat_pack h.1 h.2.1]
    simp only [reverse_cons, map_append, map_cons, map_nil, ofDigits_concat]
    ring

theorem leValue_take (h : n ≤ bs.length) : leValue (bs.take n) = leValue bs % 256 ^ n := by
  have hlt := leValue_lt (bs.take n)
  rw [length_take_of_le h] at hlt
  conv_rhs => rw [← take_append_drop n bs, leValue_append, length_take_of_le h,
    Nat.add_mul_mod_self_left, Nat.mod_eq_of_lt hlt]

theorem leValue_zeros (bs : Bytes) (n : Nat) : leValue (bs ++ replicate n 0) = leValue bs := by
  have hzero : leValue (replicate n 0) = 0 := by
    induction n with
    | zero => rfl
    | succ n ih => simp [replicate_succ, leValue, ih]
  rw [leValue_append, hzero, Nat.mul_zero, Nat.add_zero]

theorem not_of_head?_dropWhile {p : UInt8 → Bool} {s : Bytes} :
    ∀ c ∈ (s.dropWhile p).head?, p c = false := by
  intro c hc
  have h := head?_dropWhile_not p s
  rw [Option.mem_def.mp hc] at h
  simpa using h

theorem skip0x_spec (psz : Bytes) : ∃ start, psz = start ++ skip0x psz ∧
    (start = [0x30, 0x78] ∨ start = [0x30, 0x58] ∨
      start = [] ∧ ¬[0x30, 0x78] <+: psz ∧ ¬[0x30, 0x58] <+: psz) := by
  match psz with
  | [] => exact ⟨[], rfl, .inr (.inr ⟨rfl, by simp, by simp⟩)⟩
  | [x] => exact ⟨[], rfl, .inr (.inr ⟨rfl, by simp, by simp⟩)⟩
  | x :: y :: psz =>
    rw [skip0x]
    split_ifs with h
    · obtain ⟨rfl, rfl | rfl⟩ := h
      · exact ⟨_, rfl, .inl rfl⟩
      · exact ⟨_, rfl, .inr (.inl rfl)⟩
    · exact ⟨[], rfl, .inr (.inr ⟨rfl, by grind, by grind⟩)⟩

theorem uint256S_getHex (h : uint256) : uint256S (getHex h) = h := by
  have hdigits : ∀ c ∈ getHex h, (hexDigit c).isSome = true := by
    intro c hc
    obtain ⟨b, -, hb⟩ := mem_flatMap.mp hc
    obtain ⟨x, y, high, low, hstr, -, hx, hy, -⟩ := hexDigit_hexStr b
    rw [hstr, mem_pair] at hb
    rcases hb with rfl | rfl
    · simp [hx]
    · simp [hy]
  have hspace : (getHex h).dropWhile isspace = getHex h := by
    cases hs : getHex h with
    | nil => rfl
    | cons c s => simp [((hexDigit_spec c).1 (hdigits c (by simp [hs]))).1]
  have hskip : skip0x (getHex h) = getHex h := by
    obtain ⟨start, hstart, rfl | rfl | ⟨rfl, -⟩⟩ := skip0x_spec (getHex h)
    · exact absurd (hdigits 0x78 (by rw [hstart]; simp)) (by decide)
    · exact absurd (hdigits 0x58 (by rw [hstart]; simp)) (by decide)
    · exact hstart.symm
  have hpack : ∀ bs : Bytes,
      packDigits ((bs.reverse.flatMap hexStr).filterMap hexDigit).reverse = bs := by
    intro bs
    induction bs with
    | nil => rfl
    | cons b bs ih =>
      obtain ⟨x, y, high, low, hstr, -, hx, hy, hb⟩ := hexDigit_hexStr b
      rw [reverse_cons, flatMap_append, flatMap_singleton, hstr]
      simp [hx, hy, packDigits, ih, UInt8.or_comm low, hb]
  apply Subtype.ext
  simp only [uint256S, hspace, hskip]
  rw [takeWhile_eq_self_iff.mpr hdigits, getHex, hpack, take_left' h.2]

/-- `SetHex` skips white space and one `0x` and reads the number written in the digits behind them,
modulo `2 ^ 256`. It reads back everything that `GetHex` writes. -/
theorem setHex_exact :
    (∀ str, ∃ spaces start digits rest, str = spaces ++ (start ++ (digits ++ rest)) ∧
      (∀ c ∈ spaces, isspace c = true) ∧
      (∀ c ∈ (start ++ (digits ++ rest)).head?, isspace c = false) ∧
      (start = [0x30, 0x78] ∨ start = [0x30, 0x58] ∨ start = [] ∧
        ¬[0x30, 0x78] <+: digits ++ rest ∧ ¬[0x30, 0x58] <+: digits ++ rest) ∧
      (∀ c ∈ digits, (hexDigit c).isSome = true) ∧ (∀ c ∈ rest.head?, hexDigit c = none) ∧
      leValue (uint256S str).1 = ofDigits 16 (digitValues digits) % 2 ^ 256) ∧
    ∀ h, uint256S (getHex h) = h := by
  refine ⟨fun str => ?_, uint256S_getHex⟩
  obtain ⟨start, hstart, hcases⟩ := skip0x_spec (str.dropWhile isspace)
  generalize hpsz : skip0x (str.dropWhile isspace) = psz at hstart
  let isDigit := fun c : UInt8 => (hexDigit c).isSome
  have hsplit : psz.takeWhile isDigit ++ psz.dropWhile isDigit = psz := takeWhile_append_dropWhile
  refine ⟨str.takeWhile isspace, start, psz.takeWhile isDigit, psz.dropWhile isDigit, ?_⟩
  rw [hsplit, ← hstart]
  refine ⟨takeWhile_append_dropWhile.symm, fun c hc => mem_takeWhile_imp hc,
    not_of_head?_dropWhile, ?_, fun c hc => mem_takeWhile_imp (p := isDigit) hc, fun c hc => ?_, ?_⟩
  · rcases hcases with h | h | ⟨rfl, h⟩
    · exact .inl h
    · exact .inr (.inl h)
    · rw [hstart] at h
      exact .inr (.inr ⟨rfl, h⟩)
  · simpa [isDigit] using not_of_head?_dropWhile c hc
  · simp only [uint256S, hpsz]
    rw [leValue_take (by simp), leValue_zeros, leValue_packDigits, reverse_reverse]
    · rfl
    · intro d hd
      obtain ⟨c, -, hc⟩ := mem_filterMap.mp (mem_reverse.mp hd)
      exact (hexDigit_spec c).2 d hc

end Utsuite.HexText
