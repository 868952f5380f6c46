import Utsuite.EquihashCodec
import Utsuite.Hoare

namespace Utsuite.EquihashMinimal

open ByteWords BitPack EquihashCodec List
open Hoare (except_bind_eq_ok_iff)
open Equihash hiding getIndicesFromMinimal getMinimalFromIndices

inductive Fault where
  | assertion
  | undefined

def sizeT (n : Nat) : Nat := n % 2 ^ 64

def ofInt (i : Int) : Nat := (i % 2 ^ 64).toNat

def toInt (n : Nat) : Int := signed 32 (n % 2 ^ 32)

section

variable (bitLen bytePad : Nat)

def expandArrayInto (input : Bytes) (outLen : Nat) : Except Fault Bytes :=
  if 8 ≤ bitLen ∧ 7 + bitLen ≤ 32 ∧
      outLen = sizeT (8 * ((bitLen + 7) / 8 + bytePad) * input.length) / bitLen then
    let out := expandArray input bitLen bytePad
    if out.length ≤ outLen then .ok (out ++ replicate (outLen - out.length) 0) else .error .undefined
  else .error .assertion

def compressArrayInto (input : Bytes) (outLen : Nat) : Except Fault Bytes :=
  if 8 ≤ bitLen ∧ 7 + bitLen ≤ 32 ∧
      outLen = sizeT (bitLen * input.length) / (8 * ((bitLen + 7) / 8 + bytePad)) then
    .ok (compressArray input outLen bitLen bytePad)
  else .error .assertion

end

/-- The loop that reads the indices. Its counter is an `int`, while the bound is a `size_t`. -/
def readIndices (lenIndices : Nat) : List Bytes → Int → List Nat
  | [], _ => []
  | piece :: rest, i =>
    if ofInt i < lenIndices then
      arrayToEhIndex piece :: readIndices lenIndices rest (toInt (sizeT (ofInt i + 4)))
    else []

-- A length that is no multiple of four would be read past its end.
def readArray (array : Bytes) : Except Fault (List Nat) :=
  if 4 ∣ array.length then .ok (readIndices array.length (pieces 4 array) 0) else .error .undefined

def lenIndices (minimalSize cBitLen : Nat) : Nat := sizeT (8 * 4 * minimalSize) / (cBitLen + 1)

def getIndicesFromMinimal (minimal : Bytes) (cBitLen : Nat) : Except Fault (List Nat) :=
  if (cBitLen + 1 + 7) / 8 ≤ 4 then do
    let array ← expandArrayInto (cBitLen + 1) (indexPad cBitLen) minimal
      (lenIndices minimal.length cBitLen)
    readArray array
  else .error .assertion

def writeIndices : List Nat → Int → Except Fault Bytes
  | [], _ => .ok []
  | index :: rest, i =>
    if i = 2 ^ 31 - 1 then .error .undefined
    else (writeIndices rest (i + 1)).map (ehIndexToArray index ++ ·)

def minLen (indicesSize cBitLen : Nat) : Nat := sizeT ((cBitLen + 1) * sizeT (indicesSize * 4)) / (8 * 4)

def getMinimalFromIndices (indices : List Nat) (cBitLen : Nat) : Except Fault Bytes :=
  if (cBitLen + 1 + 7) / 8 ≤ 4 then do
    let array ← writeIndices indices 0
    compressArrayInto (cBitLen + 1) (indexPad cBitLen) array (minLen indices.length cBitLen)
  else .error .assertion

theorem readIndices_negative (hlen : len < 2 ^ 63) (ps : List Bytes) :
    readIndices len ps (-2 ^ 31) = [] := by
  cases ps with
  | nil => rfl
  | cons piece rest =>
    have hbig : ¬ ofInt (-2 ^ 31) < len := by
      rw [ofInt]
      omega
    rw [readIndices, if_neg hbig]

theorem next_index {k : Nat} (hk : k < 2 ^ 29) :
    toInt (sizeT (ofInt (4 * (k : Int)) + 4)) = if k + 1 < 2 ^ 29 then 4 * ((k + 1 : Nat) : Int) else -2 ^ 31 := by
  have hof : ofInt (4 * (k : Int)) = 4 * k := by
    rw [ofInt]
    omega
  rw [hof, toInt, signed, sizeT]
  split <;> split <;> omega

theorem readIndices_eq_take {len : Nat} (hlen : len < 2 ^ 63) (ps : List Bytes) {k : Nat}
    (hk : k < 2 ^ 29) (htotal : 4 * (k + ps.length) = len) :
    readIndices len ps (4 * (k : Int)) = (ps.take (2 ^ 29 - k)).map arrayToEhIndex := by
  induction ps generalizing k with
  | nil => rw [take_nil, readIndices, map_nil]
  | cons piece rest ih =>
    rw [length_cons] at htotal
    have hmore : ofInt (4 * (k : Int)) < len := by
      rw [ofInt]
      omega
    have htake : 2 ^ 29 - k = 2 ^ 29 - (k + 1) + 1 := by omega
    rw [readIndices, if_pos hmore, next_index hk, htake, take_succ_cons, map_cons]
    congr 1
    by_cases hnext : k + 1 < 2 ^ 29
    · rw [if_pos hnext]
      exact ih hnext (by omega)
    · have hzero : 2 ^ 29 - (k + 1) = 0 := by omega
      rw [if_neg hnext, hzero, take_zero, map_nil]
      exact readIndices_negative hlen rest

theorem pieces_length (width : Nat) (array : Bytes) : (pieces width array).length = array.length / width := by
  rw [pieces, length_map, length_range]

theorem readArray_eq (hlen : array.length < 2 ^ 63) (hdvd : 4 ∣ array.length) :
    readArray array = .ok (((pieces 4 array).map arrayToEhIndex).take (2 ^ 29)) := by
  have htotal : 4 * (0 + (pieces 4 array).length) = array.length := by
    rw [pieces_length]
    omega
  have hread := readIndices_eq_take hlen (pieces 4 array) (k := 0) (by omega) htotal
  rw [readArray, if_pos hdvd, ← map_take]
  rw [Nat.cast_zero, Int.mul_zero, Nat.sub_zero] at hread
  rw [hread]

theorem writeIndices_eq {indices : List Nat} {i : Nat} (h : i + indices.length < 2 ^ 31) :
    writeIndices indices i = .ok (indices.flatMap ehIndexToArray) := by
  induction indices generalizing i with
  | nil => rfl
  | cons index rest ih =>
    rw [length_cons] at h
    have hrest : writeIndices rest (i + 1) = .ok (rest.flatMap ehIndexToArray) :=
      ih (i := i + 1) (by omega)
    rw [writeIndices, if_neg (by omega), hrest, flatMap_cons]
    rfl

section

variable {cBitLen : Nat}

theorem flatMap_ehIndexToArray_length (indices : List Nat) :
    (indices.flatMap ehIndexToArray).length = 4 * indices.length := by
  induction indices with
  | nil => rfl
  | cons i indices ih =>
    rw [flatMap_cons, length_append, ehIndexToArray_length, ih, length_cons]
    omega

theorem width_eq (hle : cBitLen + 1 ≤ 25) : (cBitLen + 1 + 7) / 8 + indexPad cBitLen = 4 := by
  rw [add_comm]
  exact indexPad_add hle

theorem lenIndices_eq (hle : cBitLen + 1 ≤ 25) (h : 8 * size = (cBitLen + 1) * m) (hm : m < 2 ^ 57) :
    lenIndices size cBitLen = 4 * m := by
  have hbytes : 8 * 4 * size = (cBitLen + 1) * (4 * m) := by
    rw [Nat.mul_right_comm, h]
    ring
  have hfits : (cBitLen + 1) * (4 * m) < 2 ^ 64 :=
    calc (cBitLen + 1) * (4 * m) ≤ 25 * (4 * m) := Nat.mul_le_mul_right _ hle
      _ < 2 ^ 64 := by omega
  rw [lenIndices, hbytes, sizeT, Nat.mod_eq_of_lt hfits, Nat.mul_div_cancel_left _ (Nat.succ_pos _)]

theorem getIndicesFromMinimal_eq_take (hge : 8 ≤ cBitLen + 1) (hle : cBitLen + 1 ≤ 25)
    (h : 8 * minimal.length = (cBitLen + 1) * m) (hm : m < 2 ^ 57) :
    getIndicesFromMinimal minimal cBitLen =
      .ok ((Equihash.getIndicesFromMinimal minimal cBitLen).take (2 ^ 29)) := by
  have hout := lenIndices_eq hle h hm
  have hlen : (expandArray minimal (cBitLen + 1) (indexPad cBitLen)).length = 4 * m := by
    rw [expandArray_indices hge hle h, flatMap_ehIndexToArray_length, digits_length]
  have hexpand : expandArrayInto (cBitLen + 1) (indexPad cBitLen) minimal
      (lenIndices minimal.length cBitLen) = .ok (expandArray minimal (cBitLen + 1) (indexPad cBitLen)) := by
    rw [expandArrayInto, width_eq hle, if_pos ⟨hge, by omega, rfl⟩, hout]
    simp [hlen]
  rw [getIndicesFromMinimal, if_pos (by omega), hexpand]
  apply readArray_eq
  · omega
  · rw [hlen]
    exact Nat.dvd_mul_right 4 m

theorem minLen_eq (hle : cBitLen + 1 ≤ 25) (h : size < 2 ^ 31) :
    minLen size cBitLen = (cBitLen + 1) * (size * 4) / (8 * 4) := by
  have hfits : (cBitLen + 1) * (size * 4) < 2 ^ 64 :=
    calc (cBitLen + 1) * (size * 4) ≤ 25 * (size * 4) := Nat.mul_le_mul_right _ hle
      _ < 2 ^ 64 := by omega
  have hsize : sizeT (size * 4) = size * 4 := Nat.mod_eq_of_lt (by omega)
  rw [minLen, hsize, sizeT, Nat.mod_eq_of_lt hfits]

theorem getMinimalFromIndices_eq (hge : 8 ≤ cBitLen + 1) (hle : cBitLen + 1 ≤ 25)
    (h : indices.length < 2 ^ 31) :
    getMinimalFromIndices indices cBitLen = .ok (Equihash.getMinimalFromIndices indices cBitLen) := by
  have hwrite : writeIndices indices 0 = .ok (indices.flatMap ehIndexToArray) :=
    writeIndices_eq (i := 0) (by omega)
  have hlen : (indices.flatMap ehIndexToArray).length = sizeT (indices.length * 4) := by
    rw [flatMap_ehIndexToArray_length, sizeT]
    omega
  have hcompress : compressArrayInto (cBitLen + 1) (indexPad cBitLen) (indices.flatMap ehIndexToArray)
      (minLen indices.length cBitLen) = .ok (Equihash.getMinimalFromIndices indices cBitLen) := by
    rw [compressArrayInto, width_eq hle, hlen, if_pos ⟨hge, by omega, rfl⟩, minLen_eq hle h]
    rfl
  rw [getMinimalFromIndices, if_pos (by omega), hwrite]
  exact hcompress

theorem expandArrayInto_length (h : expandArrayInto bitLen bytePad input outLen = .ok array) :
    array.length = outLen := by
  rw [expandArrayInto] at h
  split at h
  next =>
    simp only at h
    split at h
    next hle =>
      obtain rfl := Except.ok.inj h
      rw [length_append, length_replicate]
      omega
    next => cases h
  next => cases h

theorem getIndices_getMinimal_eq_take (hge : 8 ≤ cBitLen + 1) (hle : cBitLen + 1 ≤ 25)
    (hwidth : 8 * width = (cBitLen + 1) * indices.length)
    (hlt : ∀ i ∈ indices, i < 2 ^ (cBitLen + 1)) (hlen : indices.length < 2 ^ 31) :
    (getMinimalFromIndices indices cBitLen).bind (getIndicesFromMinimal · cBitLen) =
      .ok (indices.take (2 ^ 29)) := by
  have hbits : 8 * (Equihash.getMinimalFromIndices indices cBitLen).length =
      (cBitLen + 1) * indices.length := by
    rw [getMinimalFromIndices_eq_ofDigits hge hle hwidth hlt, beBytes_length, hwidth]
  rw [getMinimalFromIndices_eq hge hle hlen]
  change getIndicesFromMinimal _ _ = _
  rw [getIndicesFromMinimal_eq_take hge hle hbits (by omega),
    getIndices_getMinimal_of_width hge hle hwidth hlt]

theorem getIndicesFromMinimal_length_le (hge : 8 ≤ cBitLen + 1)
    (h : getIndicesFromMinimal minimal cBitLen = .ok indices) : indices.length ≤ 2 ^ 29 := by
  rw [getIndicesFromMinimal] at h
  split at h
  next =>
    have hlt : lenIndices minimal.length cBitLen < 2 ^ 63 :=
      calc lenIndices minimal.length cBitLen ≤ sizeT (8 * 4 * minimal.length) / 8 :=
            Nat.div_le_div_left hge (by omega)
        _ < 2 ^ 63 := by rw [sizeT]; omega
    cases hexpand : expandArrayInto (cBitLen + 1) (indexPad cBitLen) minimal
        (lenIndices minimal.length cBitLen) with
    | error e =>
      rw [hexpand] at h
      cases h
    | ok array =>
      rw [hexpand] at h
      change readArray array = .ok indices at h
      have hlen := expandArrayInto_length hexpand
      by_cases hdvd : 4 ∣ array.length
      · rw [readArray_eq (by omega) hdvd] at h
        obtain rfl := Except.ok.inj h
        exact length_take_le _ _
      · rw [readArray, if_neg hdvd] at h
        cases h
  next => cases h

theorem compressArray_length (input : Bytes) (outLen bitLen bytePad : Nat) :
    (compressArray input outLen bitLen bytePad).length = outLen := by
  have hstep (s : Compression) : (compressStep bitLen bytePad s).out.length = s.out.length + 1 := by
    simp only [compressStep]
    split
    all_goals rw [length_append]; rfl
  rw [compressArray]
  induction outLen with
  | zero => rfl
  | succ n ih => rw [Function.iterate_succ_apply', hstep, ih]

theorem getMinimalFromIndices_length_le (h : getMinimalFromIndices indices cBitLen = .ok minimal) :
    8 * minimal.length ≤ (cBitLen + 1) * indices.length := by
  rw [getMinimalFromIndices] at h
  split at h
  next =>
    cases hwrite : writeIndices indices 0 with
    | error e =>
      rw [hwrite] at h
      cases h
    | ok array =>
      rw [hwrite] at h
      change compressArrayInto _ _ array _ = .ok minimal at h
      rw [compressArrayInto] at h
      split at h
      next =>
        obtain rfl := Except.ok.inj h
        have hlen : sizeT ((cBitLen + 1) * sizeT (indices.length * 4)) ≤
            (cBitLen + 1) * indices.length * 4 :=
          calc sizeT ((cBitLen + 1) * sizeT (indices.length * 4)) ≤ (cBitLen + 1) * sizeT (indices.length * 4) :=
                Nat.mod_le _ _
            _ ≤ (cBitLen + 1) * (indices.length * 4) := Nat.mul_le_mul_left _ (Nat.mod_le _ _)
            _ = (cBitLen + 1) * indices.length * 4 := (Nat.mul_assoc _ _ _).symm
        rw [compressArray_length, minLen]
        omega
      next => cases h
  next => cases h

theorem writeIndices_cases (indices : List Nat) (i : Int) :
    writeIndices indices i = .ok (indices.flatMap ehIndexToArray) ∨
      writeIndices indices i = .error .undefined := by
  induction indices generalizing i with
  | nil => exact .inl rfl
  | cons index rest ih =>
    rw [writeIndices]
    by_cases hmax : i = 2 ^ 31 - 1
    · exact .inr (if_pos hmax)
    · rw [if_neg hmax]
      rcases ih (i + 1) with h | h
      · rw [h, flatMap_cons]
        exact .inl rfl
      · rw [h]
        exact .inr rfl

theorem getMinimalFromIndices_not_assertion (hge : 8 ≤ cBitLen + 1) (hle : cBitLen + 1 ≤ 25)
    (indices : List Nat) : getMinimalFromIndices indices cBitLen ≠ .error .assertion := by
  intro h
  rw [getMinimalFromIndices, if_pos (by omega)] at h
  rcases writeIndices_cases indices 0 with hwrite | hwrite
  · rw [hwrite] at h
    change compressArrayInto _ _ _ _ = _ at h
    have hlen : minLen indices.length cBitLen =
        sizeT ((cBitLen + 1) * (indices.flatMap ehIndexToArray).length) / (8 * 4) := by
      rw [minLen, flatMap_ehIndexToArray_length, sizeT, sizeT, sizeT, Nat.mul_mod_mod, mul_comm 4]
    rw [compressArrayInto, width_eq hle, if_pos ⟨hge, by omega, hlen⟩] at h
    cases h
  · rw [hwrite] at h
    cases h

theorem getIndicesFromMinimal_not_assertion (hge : 8 ≤ cBitLen + 1) (hle : cBitLen + 1 ≤ 25)
    (minimal : Bytes) : getIndicesFromMinimal minimal cBitLen ≠ .error .assertion := by
  intro h
  rw [getIndicesFromMinimal, if_pos (by omega), expandArrayInto, width_eq hle,
    if_pos ⟨hge, by omega, rfl⟩] at h
  simp only at h
  split at h
  next =>
    change readArray _ = _ at h
    rw [readArray] at h
    split at h <;> cases h
  next => cases h

/-- Writing indices into the minimal form and reading them back are inverse as far as the `int`
counter of the reader goes, and no further. No assertion fails on the way. -/
theorem minimal_encoding_bijective_iff (cBitLen : Nat) (hge : 8 ≤ cBitLen + 1) (hle : cBitLen + 1 ≤ 25) :
    (∀ indices : List Nat, 8 ∣ indices.length → (∀ i ∈ indices, i < 2 ^ (cBitLen + 1)) →
      ((getMinimalFromIndices indices cBitLen).bind (getIndicesFromMinimal · cBitLen) = .ok indices ↔
        indices.length ≤ 2 ^ 29)) ∧
    (∀ minimal : Bytes, cBitLen + 1 ∣ minimal.length →
      ((getIndicesFromMinimal minimal cBitLen).bind (getMinimalFromIndices · cBitLen) = .ok minimal ↔
        minimal.length ≤ (cBitLen + 1) * 2 ^ 26)) ∧
    (∀ indices, getMinimalFromIndices indices cBitLen ≠ .error .assertion) ∧
    ∀ minimal, getIndicesFromMinimal minimal cBitLen ≠ .error .assertion := by
  refine ⟨?_, ?_, getMinimalFromIndices_not_assertion hge hle, getIndicesFromMinimal_not_assertion hge hle⟩
  · intro indices hdvd hlt
    constructor
    · intro hround
      obtain ⟨minimal, -, hindices⟩ := except_bind_eq_ok_iff.mp hround
      exact getIndicesFromMinimal_length_le hge hindices
    · intro hlen
      obtain ⟨k, hk⟩ := hdvd
      have hwidth : 8 * ((cBitLen + 1) * k) = (cBitLen + 1) * indices.length := by
        rw [hk]
        ring
      rw [getIndices_getMinimal_eq_take hge hle hwidth hlt (by omega), take_of_length_le hlen]
  · rintro minimal ⟨k, hk⟩
    have hbits : 8 * minimal.length = (cBitLen + 1) * (8 * k) := by
      rw [hk]
      ring
    constructor
    · intro hround
      obtain ⟨indices, hindices, hminimal⟩ := except_bind_eq_ok_iff.mp hround
      have hcount := getIndicesFromMinimal_length_le hge hindices
      have hle' := getMinimalFromIndices_length_le hminimal
      have hmul := Nat.mul_le_mul_left (cBitLen + 1) hcount
      omega
    · intro hlen
      rw [hk] at hlen
      have hcount : k ≤ 2 ^ 26 := Nat.le_of_mul_le_mul_left hlen (Nat.succ_pos _)
      have hall : (Equihash.getIndicesFromMinimal minimal cBitLen).length ≤ 2 ^ 29 := by
        rw [getIndicesFromMinimal_eq_digits hge hle hbits, digits_length]
        omega
      rw [getIndicesFromMinimal_eq_take hge hle hbits (by omega), take_of_length_le hall]
      change getMinimalFromIndices _ _ = _
      rw [getMinimalFromIndices_eq hge hle (by omega), getMinimal_getIndices_of_width hge hle hbits]

theorem minimal_encoding_bijective_twenty :
    (getMinimalFromIndices [0, 1, 2, 3, 4, 5, 6, 2097151] 20).bind (getIndicesFromMinimal · 20) =
      .ok [0, 1, 2, 3, 4, 5, 6, 2097151] ∧
    (getIndicesFromMinimal (replicate 21 7) 20).bind (getMinimalFromIndices · 20) =
      .ok (replicate 21 7) := by
  obtain ⟨hindices, hminimal, -⟩ := minimal_encoding_bijective_iff 20 (by decide) (by decide)
  refine ⟨(hindices _ (by decide) ?_).mpr (by decide), (hminimal _ (by decide)).mpr (by decide)⟩
  decide

/-- With one group of eight indices more than the counter can reach, those behind it are lost. -/
theorem long_list_cut_short : ∃ indices : List Nat, 8 ∣ indices.length ∧
    (∀ i ∈ indices, i < 2 ^ (20 + 1)) ∧
    (getMinimalFromIndices indices 20).bind (getIndicesFromMinimal · 20) = .ok (indices.take (2 ^ 29)) ∧
    (getMinimalFromIndices indices 20).bind (getIndicesFromMinimal · 20) ≠ .ok indices := by
  have hlen : (List.replicate (2 ^ 29 + 8) 0).length = 2 ^ 29 + 8 := length_replicate
  generalize hindices : List.replicate (2 ^ 29 + 8) 0 = indices at hlen
  have hlt : ∀ i ∈ indices, i < 2 ^ (20 + 1) := by
    intro i hi
    rw [← hindices] at hi
    rw [eq_of_mem_replicate hi]
    decide
  have hround := getIndices_getMinimal_eq_take (by decide) (by decide)
    (show 8 * (21 * (2 ^ 26 + 1)) = (20 + 1) * indices.length by omega) hlt (by omega)
  refine ⟨indices, by omega, hlt, hround, ?_⟩
  intro hall
  rw [hround] at hall
  have hcut := congrArg List.length (Except.ok.inj hall)
  rw [length_take] at hcut
  omega

end

end Utsuite.EquihashMinimal
