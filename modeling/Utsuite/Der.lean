import Utsuite.ByteWords

namespace Utsuite.Der

open ByteWords List

def width (n : Nat) : Nat := Nat.log2 n / 8 + 1

def lengthOctets (n : Nat) : Bytes :=
  if n < 0x80 then [.ofNat n] else .ofNat (0x80 + width n) :: beBytes (width n) n

def tlv (tag : UInt8) (content : Bytes) : Bytes :=
  tag :: (lengthOctets content.length ++ content)

def readLength : Bytes → Option (Nat × Bytes)
  | [] => none
  | c :: bytes =>
    if c.toNat < 0x80 then some (c.toNat, bytes)
    else
      let width := c.toNat - 0x80
      if bytes.length < width then none else some (beValue (bytes.take width), bytes.drop width)

def readTlv (tag : UInt8) : Bytes → Option (Bytes × Bytes)
  | [] => none
  | c :: bytes => do
    if c ≠ tag then none
    let (size, bytes) ← readLength bytes
    if bytes.length < size then none else some (bytes.take size, bytes.drop size)

theorem lt_pow_width (n : Nat) : n < 256 ^ width n := by
  have hpow : 256 ^ width n = 2 ^ (8 * width n) := by
    rw [show 256 = 2 ^ 8 from rfl, ← pow_mul]
  rw [hpow]
  apply lt_of_lt_of_le Nat.lt_log2_self
  apply Nat.pow_le_pow_right Nat.two_pos
  rw [width]
  omega

theorem width_le (hk : 0 < k) (h : n < 256 ^ k) : width n ≤ k := by
  by_cases hn : n = 0
  · rw [hn]
    exact hk
  · have hlog : Nat.log2 n < 8 * k := by
      rw [Nat.log2_lt hn, pow_mul]
      exact h
    rw [width]
    omega

theorem readLength_lengthOctets (hn : n < 256 ^ 127) (rest : Bytes) :
    readLength (lengthOctets n ++ rest) = some (n, rest) := by
  rw [lengthOctets]
  by_cases hshort : n < 0x80
  · have htoNat : (UInt8.ofNat n).toNat = n := by
      rw [UInt8.toNat_ofNat', Nat.mod_eq_of_lt (by omega)]
    rw [if_pos hshort, singleton_append, readLength, htoNat, if_pos hshort]
  · have hwidth := width_le (by decide) hn
    have htoNat : (UInt8.ofNat (0x80 + width n)).toNat = 0x80 + width n := by
      rw [UInt8.toNat_ofNat', Nat.mod_eq_of_lt (by omega)]
    have hlength : (beBytes (width n) n).length = width n := beBytes_length _ _
    rw [if_neg hshort, cons_append, readLength, htoNat, if_neg (by omega)]
    simp only [Nat.add_sub_cancel_left]
    rw [if_neg (by rw [length_append]; omega), take_left' hlength, drop_left' hlength,
      beValue_beBytes, Nat.mod_eq_of_lt (lt_pow_width n)]

theorem readTlv_tlv (tag : UInt8) (h : content.length < 256 ^ 127) (rest : Bytes) :
    readTlv tag (tlv tag content ++ rest) = some (content, rest) := by
  rw [tlv, cons_append, append_assoc, readTlv, if_neg (fun hne => hne rfl)]
  change (readLength _).bind _ = _
  rw [readLength_lengthOctets h, Option.bind_some]
  simp only [take_left, drop_left]
  exact if_neg (by rw [length_append]; omega)

theorem readTlv_tlv_nil (tag : UInt8) (h : content.length < 256 ^ 127) :
    readTlv tag (tlv tag content) = some (content, []) := by
  have hread := readTlv_tlv tag h []
  rwa [append_nil] at hread

theorem length_lt_tlv (tag : UInt8) (content : Bytes) : content.length < (tlv tag content).length := by
  rw [tlv, length_cons, length_append]
  omega

theorem tlv_of_length (tag : UInt8) (h : content.length = n) :
    tlv tag content = tag :: (lengthOctets n ++ content) := by
  rw [tlv, h]

theorem tlv_short (tag : UInt8) (h : content.length = size) (hsize : size < 0x80) :
    tlv tag content = tag :: .ofNat size :: content := by
  rw [tlv_of_length tag h, lengthOctets, if_pos hsize]
  rfl

end Utsuite.Der
