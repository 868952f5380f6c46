import Mathlib.Data.List.DropRight
import Utsuite.ByteWords
import Utsuite.RadixArray

namespace Utsuite.Base58

open ByteWords RadixArray List

/-- How the functions fail. A text can be refused, a carry can be left over at an `assert`, a
counter of type `int` can overflow, and a negative size makes `std::vector` throw. -/
inductive Fault
  | rejected
  | assertion
  | overflow
  | length_error
  deriving DecidableEq

def pszBase58 : Bytes :=
  ['1', '2', '3', '4', '5', '6', '7', '8', '9', 'A', 'B', 'C', 'D', 'E', 'F', 'G', 'H', 'J', 'K',
    'L', 'M', 'N', 'P', 'Q', 'R', 'S', 'T', 'U', 'V', 'W', 'X', 'Y', 'Z', 'a', 'b', 'c', 'd', 'e',
    'f', 'g', 'h', 'i', 'j', 'k', 'm', 'n', 'o', 'p', 'q', 'r', 's', 't', 'u', 'v', 'w', 'x', 'y',
    'z'].map Char.toUInt8

def isspace (c : UInt8) : Bool := c == 0x20 || (0x09 ≤ c && c ≤ 0x0d)

/-- The main loop of `DecodeBase58`, which stops at white space. The digits of `b256` are listed
from its last byte on, and the second result is the part of the string that is left. -/
def decodeLoop : Bytes → List Nat → Except Fault (List Nat × Bytes)
  | [], b256 => .ok (b256, [])
  | c :: psz, b256 =>
    if isspace c then .ok (b256, c :: psz)
    else match pszBase58.idxOf? c with
      | none => .error .rejected
      | some ch =>
        let r := mulAdd 256 58 ch b256
        if r.2 = 0 then decodeLoop psz r.1 else .error .assertion

/-- `DecodeBase58` takes a C string. It counts the leading ones in an `int`, while the size of its
buffer is a `size_t`. -/
def decodeBase58 (psz : Bytes) : Except Fault Bytes :=
  let psz := psz.dropWhile isspace
  let zeroes := (psz.takeWhile fun c => c = 0x31).length
  let psz := psz.dropWhile fun c => c = 0x31
  if zeroes ≥ 2 ^ 31 then .error .overflow
  else match decodeLoop psz (replicate (psz.length * 733 / 1000 + 1) 0) with
    | .error fault => .error fault
    | .ok (b256, psz) =>
      if psz.dropWhile isspace ≠ [] then .error .rejected
      else .ok (replicate zeroes 0 ++ (significant b256).map .ofNat)

def cString (str : Bytes) : Bytes := str.takeWhile fun c => c ≠ 0

/-- The inner loop of `EncodeBase58`, over `b58` from its last digit on. It returns the digits, the
carry and the counter `i`. -/
def encodeRound (length : Nat) : Nat → Nat → List Nat → List Nat × Nat × Nat
  | carry, i, [] => ([], carry, i)
  | carry, i, d :: b58 =>
    if carry ≠ 0 ∨ i < length then
      let r := encodeRound length ((carry + 256 * d) / 58) (i + 1) b58
      ((carry + 256 * d) % 58 :: r.1, r.2)
    else (d :: b58, carry, i)

def encodeLoop : Bytes → List Nat → Nat → Option (List Nat × Nat)
  | [], b58, length => some (b58, length)
  | c :: vch, b58, length =>
    let r := encodeRound length c.toNat 0 b58
    if r.2.1 = 0 then encodeLoop vch r.1 r.2.2 else none

def translate (ds : List Nat) : Bytes := ds.map fun d => pszBase58.getD d 0

def toInt (n : Nat) : Int :=
  if n % 2 ^ 32 < 2 ^ 31 then (n % 2 ^ 32 : Nat) else (n % 2 ^ 32 : Nat) - 2 ^ 32

/-- `EncodeBase58` keeps both the number of leading zeroes and the size of its buffer in an `int`. -/
def encodeBase58 (vch : Bytes) : Except Fault Bytes :=
  let zeroes := (vch.takeWhile fun c => c = 0).length
  let vch := vch.dropWhile fun c => c = 0
  let size := toInt (vch.length * 138 / 100 + 1)
  if zeroes ≥ 2 ^ 31 then .error .overflow
  else if size < 0 then .error .length_error
  else match encodeLoop vch (replicate size.toNat 0) 0 with
    | none => .error .assertion
    | some (b58, length) =>
      .ok (replicate zeroes 0x31 ++ translate (significant (b58.take length)))

abbrev Hash256 := Bytes → {digest : Bytes // digest.length = 32}

def encodeBase58Check (hash : Hash256) (vchIn : Bytes) : Except Fault Bytes :=
  encodeBase58 (vchIn ++ (hash vchIn).val.take 4)

def decodeBase58Check (hash : Hash256) (str : Bytes) : Except Fault Bytes :=
  match decodeBase58 (cString str) with
  | .error fault => .error fault
  | .ok vchRet =>
    let body := vchRet.take (vchRet.length - 4)
    if vchRet.length < 4 then .error .rejected
    else if (hash body).val.take 4 ≠ vchRet.drop (vchRet.length - 4) then .error .rejected
    else .ok body

structure CBase58Data where
  vchVersion : Bytes
  vchData : Bytes
  deriving DecidableEq

def CBase58Data.setString (hash : Hash256) (str : Bytes) : Except Fault CBase58Data :=
  match decodeBase58Check hash str with
  | .error fault => .error fault
  | .ok [] => .error .rejected
  | .ok (version :: vchData) => .ok ⟨[version], vchData⟩

def CBase58Data.toString (hash : Hash256) (data : CBase58Data) : Except Fault Bytes :=
  encodeBase58Check hash (data.vchVersion ++ data.vchData)

theorem encodeRound_eq (length carry i : Nat) (hzero : ∀ d ∈ b58.drop (length - i), d = 0) :
    (encodeRound length carry i b58).1 = (mulAdd 58 256 carry b58).1 ∧
    (encodeRound length carry i b58).2.1 = (mulAdd 58 256 carry b58).2 ∧
    i ≤ (encodeRound length carry i b58).2.2 ∧
    ∀ d ∈ (encodeRound length carry i b58).1.drop ((encodeRound length carry i b58).2.2 - i),
      d = 0 := by
  induction b58 generalizing carry i with
  | nil => simp [encodeRound, mulAdd]
  | cons d b58 ih =>
    by_cases hgo : carry ≠ 0 ∨ i < length
    · have hrest : ∀ e ∈ b58.drop (length - (i + 1)), e = 0 := by
        obtain hlt | hle := lt_or_ge i length
        · rw [show length - i = length - (i + 1) + 1 by omega, drop_succ_cons] at hzero
          exact hzero
        · rw [Nat.sub_eq_zero_of_le hle] at hzero
          exact fun e he => hzero e (mem_cons_of_mem _ (mem_of_mem_drop he))
      obtain ⟨hdigits, hcarry, hle, hdrop⟩ := ih ((carry + 256 * d) / 58) (i + 1) hrest
      simp only [encodeRound, if_pos hgo, mulAdd]
      generalize encodeRound length ((carry + 256 * d) / 58) (i + 1) b58 = r at *
      obtain ⟨j, hj⟩ := Nat.exists_eq_add_of_le hle
      rw [show r.2.2 - (i + 1) = j by omega] at hdrop
      rw [show r.2.2 - i = j + 1 by omega, drop_succ_cons]
      exact ⟨by rw [hdigits], hcarry, by omega, hdrop⟩
    · -- nothing but zeroes is left, and the full loop would not change them
      obtain ⟨rfl, hle⟩ : carry = 0 ∧ length ≤ i := by omega
      rw [Nat.sub_eq_zero_of_le hle, drop_zero] at hzero
      have hall := eq_replicate_of_mem hzero
      simp only [encodeRound, if_neg hgo, Nat.sub_self, drop_zero]
      rw [hall, mulAdd_zero]
      exact ⟨rfl, rfl, le_rfl, fun e he => eq_of_mem_replicate he⟩

theorem encodeLoop_eq (vch : Bytes) {length : Nat} (hzero : ∀ d ∈ b58.drop length, d = 0) :
    (encodeLoop vch b58 length).map (fun r => significant (r.1.take r.2)) =
      (convert 58 256 (vch.map UInt8.toNat) b58).map significant := by
  induction vch generalizing b58 length with
  | nil => exact congrArg some (significant_take hzero)
  | cons c vch ih =>
    obtain ⟨hdigits, hcarry, -, hdrop⟩ := encodeRound_eq length c.toNat 0 hzero
    rw [map_cons, convert, encodeLoop, hcarry]
    by_cases hz : (mulAdd 58 256 c.toNat b58).2 = 0
    · rw [if_pos hz, if_pos hz, ← hdigits]
      exact ih hdrop
    · rw [if_neg hz, if_neg hz]
      rfl

theorem encodeLoop_zeroes (vch : Bytes) (size : Nat) :
    (encodeLoop vch (replicate size 0) 0).map (fun r => significant (r.1.take r.2)) =
      (convert 58 256 (vch.map UInt8.toNat) (replicate size 0)).map significant :=
  encodeLoop_eq vch fun _ hd => eq_of_mem_replicate hd

theorem char_mem : ∀ d < 58, pszBase58.getD d 0 ∈ pszBase58 := by decide

theorem isspace_char : ∀ d < 58, isspace (pszBase58.getD d 0) = false := by decide

theorem idxOf_char : ∀ d < 58, pszBase58.idxOf? (pszBase58.getD d 0) = some d := by decide

theorem char_eq_one : ∀ d < 58, pszBase58.getD d 0 = 0x31 → d = 0 := by decide

theorem decodeLoop_no_assertion
    (hroom : (Nat.ofDigits 256 b256 + 1) * 58 ^ psz.length ≤ 256 ^ b256.length) :
    decodeLoop psz b256 ≠ .error .assertion := by
  induction psz generalizing b256 with
  | nil => exact nofun
  | cons c psz ih =>
    by_cases hspace : isspace c = true
    · rw [decodeLoop, if_pos hspace]
      exact nofun
    · rw [decodeLoop, if_neg hspace]
      cases hch : pszBase58.idxOf? c with
      | none => exact nofun
      | some ch =>
        have hlt : ch < 58 := (idxOf?_eq_some_iff.mp hch).1
        obtain ⟨hzero, -, hroom'⟩ := mulAdd_room hlt hroom
        dsimp only
        rw [if_pos hzero]
        exact ih hroom'

theorem encode_room (n : Nat) : 256 ^ n ≤ 58 ^ (n * 138 / 100 + 1) :=
  room_of_ratio (by decide) (by decide) (by norm_num) n

theorem decode_room (n : Nat) : 58 ^ n ≤ 256 ^ (n * 733 / 1000 + 1) :=
  room_of_ratio (by decide) (by decide) (by decide +kernel) n

theorem decodeBase58_no_assertion (psz : Bytes) : decodeBase58 psz ≠ .error .assertion := by
  rw [decodeBase58]
  generalize (psz.dropWhile isspace).dropWhile (fun c => c = 0x31) = rest
  have hroom : (Nat.ofDigits 256 (replicate (rest.length * 733 / 1000 + 1) 0) + 1) *
      58 ^ rest.length ≤ 256 ^ (replicate (rest.length * 733 / 1000 + 1) 0).length := by
    simpa using decode_room rest.length
  have hloop := decodeLoop_no_assertion hroom
  split_ifs
  · exact nofun
  · split
    case h_1 fault hfault =>
      rintro ⟨⟩
      exact hloop hfault
    case h_2 =>
      split_ifs
      · exact nofun
      · exact nofun

theorem toNat_lt {vch : Bytes} : ∀ c ∈ vch.map UInt8.toNat, c < 256 := by
  intro c hc
  obtain ⟨b, -, rfl⟩ := mem_map.mp hc
  exact b.toNat_lt

theorem mem_translate (hlt : ∀ d ∈ ds, d < 58) (hc : c ∈ translate ds) : c ∈ pszBase58 := by
  obtain ⟨d, hd, rfl⟩ := mem_map.mp hc
  exact char_mem d (hlt d hd)

theorem not_special : ∀ c ∈ pszBase58, c ≠ 0 ∧ isspace c = false := by
  have hall : (pszBase58.all fun c => c ≠ 0 ∧ isspace c = false) = true := by decide +kernel
  intro c hc
  exact of_decide_eq_true (all_eq_true.mp hall c hc)

end Utsuite.Base58
