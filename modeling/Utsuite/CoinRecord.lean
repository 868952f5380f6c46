import Utsuite.Coins
import Utsuite.Compressor

namespace Utsuite.CoinRecord

open ByteWords Transaction VarInt Compressor Coins List

def unspent (vout : List CTxOut) (i : Nat) : Bool :=
  match vout[i]? with
  | some txout => !isNull txout
  | none => false

def packByte (f : Nat → Bool) : UInt8 :=
  (List.range 8).foldl (fun ch i => if f i then ch ||| (1 <<< UInt8.ofNat i) else ch) 0

def chAvail (vout : List CTxOut) (b : Nat) : UInt8 :=
  packByte fun i => unspent vout (2 + b * 8 + i)

/-- The number of bytes in the bitmask up to the last one in use, and the number of those that are
not zero. -/
def calcMaskSize (vout : List CTxOut) : Nat × Nat :=
  (range ((vout.length + 5) / 8)).foldl
    (fun (nLastUsedByte, nNonzeroBytes) b =>
      if (range 8).any fun i => unspent vout (2 + b * 8 + i) then (b + 1, nNonzeroBytes + 1)
      else (nLastUsedByte, nNonzeroBytes))
    (0, 0)

def bits (chAvail : UInt8) : List Bool :=
  (List.range 8).map fun p => chAvail &&& (1 <<< UInt8.ofNat p) ≠ 0

/-- The bitmask has no length of its own. Reading ends with the byte that makes up the number of
non-zero bytes. -/
def readMask : Nat → Bytes → Option (List Bool × Bytes)
  | 0, s => some ([], s)
  | _ + 1, [] => none
  | nMaskCode + 1, chAvail :: s => do
    let (vAvail, s) ← readMask (if chAvail ≠ 0 then nMaskCode else nMaskCode + 1) s
    pure (bits chAvail ++ vAvail, s)

section

/-- `VARINT` is applied to an `int`, so that its first comparison is one of signed numbers. -/
def writeInt (n : Int32) : Option Bytes :=
  if n ≤ 0x7F then some [digit n.toUInt32.toNat 0] else writeVarInt 4 n.toUInt32.toNat

def getSizeOfInt (n : Int32) : Nat :=
  if n ≤ 0x7F then 1 else getSizeOfVarInt n.toUInt32.toNat

def readInt (s : Bytes) : Option (Int32 × Bytes) := do
  let (n, s) ← readVarInt 4 s
  pure ((UInt32.ofNat n).toInt32, s)

/-- The first number of a record holds three flags and the number of non-zero bytes. `none` stands
for the failed assertion that some output is unspent. -/
def headerCode (coins : CCoins) : Option Nat :=
  let nMaskCode := (calcMaskSize coins.vout).2
  let fFirst := unspent coins.vout 0
  let fSecond := unspent coins.vout 1
  if fFirst || fSecond || nMaskCode ≠ 0 then
    some ((8 * (nMaskCode - if fFirst || fSecond then 0 else 1) +
      (if coins.fCoinBase then 1 else 0) + (if fFirst then 2 else 0) +
      (if fSecond then 4 else 0)) % 2 ^ 32)
  else none

variable (C : Curve)

def serializeOuts : List CTxOut → Option Bytes
  | [] => some []
  | txout :: vout =>
    if isNull txout then serializeOuts vout
    else do
      let out ← serializeTxOut C txout
      let outs ← serializeOuts vout
      pure (out ++ outs)

def serialize (coins : CCoins) : Option Bytes := do
  let nMaskSize := (calcMaskSize coins.vout).1
  let nCode ← headerCode coins
  let version ← writeInt coins.nVersion
  let code ← writeVarInt 4 nCode
  let outs ← serializeOuts C coins.vout
  let height ← writeInt coins.nHeight
  pure (version ++ code ++ (range nMaskSize).map (chAvail coins.vout) ++ outs ++ height)

def sizeOuts : List CTxOut → Option Nat
  | [] => some 0
  | txout :: vout =>
    if isNull txout then sizeOuts vout
    else do
      let out ← serializeTxOut C txout
      let nSize ← sizeOuts vout
      pure (out.length + nSize)

def getSerializeSize (coins : CCoins) : Option Nat := do
  let nMaskSize := (calcMaskSize coins.vout).1
  let nCode ← headerCode coins
  let outs ← sizeOuts C coins.vout
  pure ((getSizeOfInt coins.nVersion + getSizeOfVarInt nCode + nMaskSize + outs +
    getSizeOfInt coins.nHeight) % 2 ^ 32)

def unserializeOuts : List Bool → Bytes → Option (List CTxOut × Bytes)
  | [], s => some ([], s)
  | f :: vAvail, s => do
    let (txout, s) ← if f then unserializeTxOut C nullTxOut s else some (nullTxOut, s)
    let (vout, s) ← unserializeOuts vAvail s
    pure (txout :: vout, s)

def unserialize (s : Bytes) : Option (CCoins × Bytes) := do
  let (nVersion, s) ← readInt s
  let (nCode, s) ← readVarInt 4 s
  let fCoinBase : Bool := nCode &&& 1 ≠ 0
  let vAvail : List Bool := [nCode &&& 2 ≠ 0, nCode &&& 4 ≠ 0]
  let nMaskCode := nCode / 8 + if nCode &&& 6 ≠ 0 then 0 else 1
  let (mask, s) ← readMask nMaskCode s
  let (vout, s) ← unserializeOuts C (vAvail ++ mask) s
  let (nHeight, s) ← readInt s
  pure (CCoins.cleanup ⟨fCoinBase, vout, nHeight, nVersion⟩, s)

end

def pack8 (b0 b1 b2 b3 b4 b5 b6 b7 : Bool) : UInt8 :=
  packByte fun i => [b0, b1, b2, b3, b4, b5, b6, b7].getD i false

theorem pack8_spec : ∀ b0 b1 b2 b3 b4 b5 b6 b7 : Bool,
    bits (pack8 b0 b1 b2 b3 b4 b5 b6 b7) = [b0, b1, b2, b3, b4, b5, b6, b7] ∧
      (pack8 b0 b1 b2 b3 b4 b5 b6 b7 ≠ 0 ↔
        (b0 || b1 || b2 || b3 || b4 || b5 || b6 || b7) = true) := by
  decide +kernel

theorem packByte_eq_pack8 (f : Nat → Bool) :
    packByte f = pack8 (f 0) (f 1) (f 2) (f 3) (f 4) (f 5) (f 6) (f 7) := rfl

theorem bits_packByte (f : Nat → Bool) : bits (packByte f) = (range 8).map f := by
  rw [packByte_eq_pack8]
  exact (pack8_spec _ _ _ _ _ _ _ _).1

theorem packByte_ne_zero (f : Nat → Bool) : packByte f ≠ 0 ↔ (range 8).any f = true := by
  rw [packByte_eq_pack8]
  refine (pack8_spec _ _ _ _ _ _ _ _).2.trans ?_
  have hany : (range 8).any f =
      (f 0 || (f 1 || (f 2 || (f 3 || (f 4 || (f 5 || (f 6 || (f 7 || false)))))))) := rfl
  rw [hany]
  simp only [Bool.or_assoc, Bool.or_false]

theorem bits_mask (f : Nat → Bool) (n : Nat) :
    ((range n).map fun b => packByte fun i => f (b * 8 + i)).flatMap bits =
      (range (8 * n)).map f := by
  induction n with
  | zero => rfl
  | succ n ih =>
    rw [range_succ, map_append, flatMap_append, ih, Nat.mul_succ, range_add,
      map_append]
    congr 1
    rw [map_singleton, flatMap_singleton, bits_packByte, map_map]
    apply map_congr_left
    intro i _
    rw [Function.comp_apply, mul_comm]

theorem readMask_append (mask s : Bytes) (hlast : ∀ h : mask ≠ [], mask.getLast h ≠ 0) :
    readMask (mask.countP (· ≠ 0)) (mask ++ s) = some (mask.flatMap bits, s) := by
  induction mask with
  | nil =>
    rw [countP_nil, readMask]
    rfl
  | cons ch mask ih =>
    have htail : ∀ h : mask ≠ [], mask.getLast h ≠ 0 := fun h => by
      rw [← getLast_cons h]
      exact hlast (cons_ne_nil ch mask)
    have hpos : 0 < (ch :: mask).countP (· ≠ 0) := by
      apply countP_pos_iff.mpr
      exact ⟨_, getLast_mem (cons_ne_nil ch mask), by
        simpa using hlast (cons_ne_nil ch mask)⟩
    obtain ⟨k, hk⟩ := Nat.exists_eq_succ_of_ne_zero (Nat.pos_iff_ne_zero.mp hpos)
    have hrest : (if ch ≠ 0 then k else k + 1) = mask.countP (· ≠ 0) := by
      rw [countP_cons] at hk
      by_cases hch : ch = 0
      · simpa [hch] using hk.symm
      · simpa [hch] using hk.symm
    rw [hk, cons_append, Nat.succ_eq_add_one, readMask, hrest, ih htail]
    rfl

theorem mask_fold (p : Nat → Bool) (n : Nat) :
    (range n).foldl (fun (acc : Nat × Nat) b => if p b then (b + 1, acc.2 + 1) else acc)
        (0, 0) =
      (((range n).foldl (fun last b => if p b then b + 1 else last) 0),
        (range n).countP p) := by
  induction n with
  | zero => rfl
  | succ n ih =>
    rw [range_succ, foldl_append, foldl_append, ih, countP_append]
    simp only [foldl_cons, foldl_nil, countP_singleton]
    split <;> rfl

theorem last_used (p : Nat → Bool) (n : Nat) (hlast : ∀ m, n = m + 1 → p m = true) :
    (range n).foldl (fun last b => if p b then b + 1 else last) 0 = n := by
  cases n with
  | zero => rfl
  | succ m =>
    rw [range_succ, foldl_append, foldl_cons, foldl_nil,
      if_pos (hlast m rfl)]

theorem unspent_of_lt (h : i < vout.length) : unspent vout i = !isNull vout[i] := by
  rw [unspent, getElem?_eq_getElem h]

theorem unspent_of_le (h : vout.length ≤ i) : unspent vout i = false := by
  rw [unspent, getElem?_eq_none h]

def Trimmed (vout : List CTxOut) : Prop := ∀ h : vout ≠ [], isNull (vout.getLast h) = false

theorem trimmed_of_cleanup {coins : CCoins} (h : coins.cleanup = coins) : Trimmed coins.vout := by
  have hvout : coins.vout.rdropWhile isNull = coins.vout := congrArg CCoins.vout h
  intro hne
  exact Bool.eq_false_iff.mpr (rdropWhile_eq_self_iff.mp hvout hne)

theorem Trimmed.last_byte (h : Trimmed vout) (m : Nat) (hm : (vout.length + 5) / 8 = m + 1) :
    ((range 8).any fun i => unspent vout (2 + m * 8 + i)) = true := by
  have hne : vout ≠ [] := by
    rintro rfl
    simp at hm
  have hlast := h hne
  rw [getLast_eq_getElem] at hlast
  apply any_eq_true.mpr
  refine ⟨vout.length - 1 - (2 + m * 8), mem_range.mpr (by omega), ?_⟩
  rw [unspent_of_lt (by omega)]
  have hindex : 2 + m * 8 + (vout.length - 1 - (2 + m * 8)) = vout.length - 1 := by omega
  simp [hindex, hlast]

def maskOf (vout : List CTxOut) : Bytes :=
  (range ((vout.length + 5) / 8)).map (chAvail vout)

def nonzeroBytes (vout : List CTxOut) : Nat := (maskOf vout).countP (· ≠ 0)

theorem calcMaskSize_eq (h : Trimmed vout) :
    calcMaskSize vout = ((vout.length + 5) / 8, nonzeroBytes vout) := by
  unfold calcMaskSize nonzeroBytes maskOf
  rw [mask_fold (fun b => (range 8).any fun i => unspent vout (2 + b * 8 + i)),
    last_used _ _ h.last_byte, countP_map]
  congr 2
  funext b
  rw [Function.comp_apply, Bool.eq_iff_iff, decide_eq_true_iff]
  exact (packByte_ne_zero _).symm

section

variable {C : Curve}

def kept (txout : CTxOut) : CTxOut := if isNull txout then nullTxOut else txout

theorem isNull_kept (txout : CTxOut) : isNull (kept txout) = isNull txout := by
  unfold kept
  split
  · rename_i h
    rw [h]
    rfl
  · rfl

theorem unserializeOuts_spent (k : Nat) (s : Bytes) :
    unserializeOuts C (replicate k false) s = some (replicate k nullTxOut, s) := by
  induction k with
  | zero => rfl
  | succ k ih =>
    rw [replicate_succ, unserializeOuts, if_neg (by decide)]
    dsimp
    rw [ih]
    rfl

theorem unserializeOuts_serializeOuts (hC : C.Recovers) (vout : List CTxOut)
    (hvout : ∀ txout ∈ vout, isNull txout = false → Fits txout) :
    ∃ outs, serializeOuts C vout = some outs ∧ sizeOuts C vout = some outs.length ∧
      ∀ k s, unserializeOuts C (vout.map (fun txout => !isNull txout) ++ replicate k false)
        (outs ++ s) = some (vout.map kept ++ replicate k nullTxOut, s) := by
  induction vout with
  | nil => exact ⟨[], rfl, rfl, unserializeOuts_spent⟩
  | cons txout vout ih =>
    obtain ⟨outs, houts, hsize, hread⟩ := ih fun o ho => hvout o (mem_cons_of_mem _ ho)
    rw [serializeOuts, sizeOuts]
    by_cases hnull : isNull txout = true
    · refine ⟨outs, by rw [if_pos hnull, houts], by rw [if_pos hnull, hsize], fun k s => ?_⟩
      have hkept : kept txout = nullTxOut := if_pos hnull
      rw [map_cons, map_cons, hnull, hkept, cons_append, unserializeOuts,
        if_neg (by decide)]
      dsimp
      rw [hread]
      rfl
    · have hfits := hvout txout mem_cons_self (Bool.eq_false_iff.mpr hnull)
      obtain ⟨out, hout, htxout⟩ := unserializeTxOut_serializeTxOut hC hfits
      refine ⟨out ++ outs, ?_, ?_, fun k s => ?_⟩
      · rw [if_neg hnull, hout, houts]
        rfl
      · rw [if_neg hnull, hout, hsize, length_append]
        rfl
      · have hkept : kept txout = txout := if_neg hnull
        rw [map_cons, map_cons, Bool.eq_false_iff.mpr hnull, hkept, cons_append,
          unserializeOuts, Bool.not_false, if_pos rfl, append_assoc, htxout]
        dsimp
        rw [hread]
        rfl

theorem avail_eq (vout : List CTxOut) (n : Nat) (hn : vout.length ≤ n) :
    (range n).map (unspent vout) =
      vout.map (fun txout => !isNull txout) ++ replicate (n - vout.length) false := by
  apply ext_getElem
  · simp only [length_map, length_range, length_append, length_replicate]
    omega
  · intro i _ _
    rw [getElem_map, getElem_range, getElem_append]
    split
    · rename_i hlt
      rw [length_map] at hlt
      rw [unspent_of_lt hlt, getElem_map]
    · rename_i hge
      rw [length_map] at hge
      rw [unspent_of_le (not_lt.mp hge), getElem_replicate]

theorem avail_bits (vout : List CTxOut) :
    ∃ k, [unspent vout 0, unspent vout 1] ++ (maskOf vout).flatMap bits =
      vout.map (fun txout => !isNull txout) ++ replicate k false := by
  have hbyte : chAvail vout = fun b => packByte fun i => unspent vout (2 + (b * 8 + i)) := by
    funext b
    unfold chAvail
    congr 1
    funext i
    rw [add_assoc]
  have hmask : (maskOf vout).flatMap bits =
      (range (8 * ((vout.length + 5) / 8))).map fun j => unspent vout (2 + j) := by
    unfold maskOf
    rw [hbyte]
    exact bits_mask (fun j => unspent vout (2 + j)) _
  refine ⟨2 + 8 * ((vout.length + 5) / 8) - vout.length, ?_⟩
  rw [← avail_eq vout _ (by omega), range_add, map_append, map_map, hmask]
  rfl

theorem rdropWhile_spent (vout : List CTxOut) (h : Trimmed vout) (k : Nat) :
    (vout.map kept ++ replicate k nullTxOut).rdropWhile isNull = vout.map kept := by
  induction k with
  | zero =>
    rw [replicate_zero, append_nil, rdropWhile_eq_self_iff]
    intro hne
    rw [getLast_map, isNull_kept, h]
    exact Bool.false_ne_true
  | succ k ih =>
    rw [replicate_succ', ← append_assoc, rdropWhile_concat_pos _ _ _ rfl, ih]

end

theorem and_low (n k : Nat) (hk : k &&& 7 = k) : n &&& k = n % 8 &&& k := by
  have hmod : n % 8 = n &&& 7 := (Nat.and_two_pow_sub_one_eq_mod n 3).symm
  rw [hmod, Nat.and_assoc, Nat.and_comm 7 k, hk]

theorem header_flags (M : Nat) (fCoinBase fFirst fSecond : Bool) :
    let nCode := 8 * M + (if fCoinBase then 1 else 0) + (if fFirst then 2 else 0) +
      (if fSecond then 4 else 0)
    decide (nCode &&& 1 ≠ 0) = fCoinBase ∧ decide (nCode &&& 2 ≠ 0) = fFirst ∧
      decide (nCode &&& 4 ≠ 0) = fSecond ∧ decide (nCode &&& 6 ≠ 0) = (fFirst || fSecond) ∧
      nCode / 8 = M ∧ nCode < 8 * M + 8 := by
  intro nCode
  have hmod : nCode % 8 = (if fCoinBase then 1 else 0) + (if fFirst then 2 else 0) +
      (if fSecond then 4 else 0) := by
    cases fCoinBase <;> cases fFirst <;> cases fSecond <;> simp [nCode] <;> omega
  rw [and_low nCode 1 rfl, and_low nCode 2 rfl, and_low nCode 4 rfl, and_low nCode 6 rfl, hmod]
  cases fCoinBase <;> cases fFirst <;> cases fSecond <;> simp [nCode] <;> omega

theorem writeInt_eq (hn : 0 ≤ n) :
    writeInt n = writeVarInt 4 n.toUInt32.toNat ∧
      getSizeOfInt n = getSizeOfVarInt n.toUInt32.toNat := by
  unfold writeInt getSizeOfInt
  split
  · rename_i hle
    have hsmall : n.toUInt32.toNat ≤ 0x7F := by
      have hint : n.toInt ≤ 0x7F := Int32.le_iff_toInt_le.mp hle
      rw [Int32.toNat_toUInt32_of_le hn, ← Int32.toNat_toInt]
      omega
    constructor
    · have hroom : (4 * 8 + 6) / 7 = 4 + 1 := rfl
      rw [writeVarInt, hroom, fillTmp, if_pos hsmall]
      rfl
    · rw [getSizeOfVarInt, if_pos hsmall]
  · exact ⟨rfl, rfl⟩

theorem writeInt_nonneg (hn : 0 ≤ n) :
    ∃ bytes, writeInt n = some bytes ∧ ∀ s, readInt (bytes ++ s) = some (n, s) := by
  obtain ⟨hwrite, -⟩ := writeInt_eq hn
  have hlt : n.toUInt32.toNat < 2 ^ (8 * 4) := n.toUInt32.toNat_lt
  obtain ⟨bytes, hbytes⟩ := writeVarInt_total 4 _ (by decide) hlt
  refine ⟨bytes, by rw [hwrite, hbytes], fun s => ?_⟩
  unfold readInt
  rw [readVarInt_writeVarInt 4 _ hlt bytes s hbytes]
  dsimp
  rw [UInt32.ofNat_toNat]
  simp

section

variable {C : Curve}

theorem length_maskOf (vout : List CTxOut) : (maskOf vout).length = (vout.length + 5) / 8 := by
  rw [maskOf, length_map, length_range]

theorem nonzeroBytes_le (vout : List CTxOut) : nonzeroBytes vout ≤ (vout.length + 5) / 8 :=
  countP_le_length.trans (length_maskOf vout).le

theorem Trimmed.mask_last (h : Trimmed vout) (hne : maskOf vout ≠ []) :
    (maskOf vout).getLast hne ≠ 0 := by
  have hpos : 0 < (maskOf vout).length := length_pos_iff.mpr hne
  rw [length_maskOf] at hpos
  unfold maskOf at hne ⊢
  rw [getLast_map, getLast_range]
  exact (packByte_ne_zero _).mpr (h.last_byte _ (by omega))

theorem exists_unspent {coins : CCoins} (hpruned : coins.isPruned = false)
    (hfirst : unspent coins.vout 0 = false) (hsecond : unspent coins.vout 1 = false) :
    nonzeroBytes coins.vout ≠ 0 := by
  obtain ⟨txout, hmem, hnull⟩ : ∃ txout ∈ coins.vout, isNull txout = false := by
    simpa [CCoins.isPruned] using hpruned
  obtain ⟨i, hi, rfl⟩ := getElem_of_mem hmem
  have hunspent : unspent coins.vout i = true := by
    rw [unspent_of_lt hi, hnull]
    rfl
  have htwo : 2 ≤ i := by
    by_contra hlt
    obtain rfl | rfl : i = 0 ∨ i = 1 := by omega
    · exact absurd (hfirst.symm.trans hunspent) (by decide)
    · exact absurd (hsecond.symm.trans hunspent) (by decide)
  apply Nat.pos_iff_ne_zero.mp
  apply countP_pos_iff.mpr
  refine ⟨chAvail coins.vout ((i - 2) / 8),
    mem_map.mpr ⟨(i - 2) / 8, mem_range.mpr (by omega), rfl⟩, ?_⟩
  apply decide_eq_true
  refine (packByte_ne_zero _).mpr (any_eq_true.mpr
    ⟨(i - 2) % 8, mem_range.mpr (by omega), ?_⟩)
  have hindex : 2 + (i - 2) / 8 * 8 + (i - 2) % 8 = i := by omega
  rw [hindex, hunspent]

theorem headerCode_eq (htrim : Trimmed coins.vout) (hpruned : coins.isPruned = false)
    (hcount : coins.vout.length + 7 < 2 ^ 32) :
    ∃ nCode, headerCode coins = some nCode ∧ nCode < 2 ^ (8 * 4) ∧
      decide (nCode &&& 1 ≠ 0) = coins.fCoinBase ∧
      decide (nCode &&& 2 ≠ 0) = unspent coins.vout 0 ∧
      decide (nCode &&& 4 ≠ 0) = unspent coins.vout 1 ∧
      (nCode / 8 + if nCode &&& 6 ≠ 0 then 0 else 1) = nonzeroBytes coins.vout := by
  have hle := nonzeroBytes_le coins.vout
  have hmask : (calcMaskSize coins.vout).2 = nonzeroBytes coins.vout := by
    rw [calcMaskSize_eq htrim]
  have hsome : (unspent coins.vout 0 || unspent coins.vout 1 ||
      decide (nonzeroBytes coins.vout ≠ 0)) = true := by
    cases hfirst : unspent coins.vout 0 with
    | true => rfl
    | false =>
      cases hsecond : unspent coins.vout 1 with
      | true => rfl
      | false => simpa using exists_unspent hpruned hfirst hsecond
  obtain ⟨hbase, hfirst, hsecond, hboth, hdiv, hlt⟩ :=
    header_flags (nonzeroBytes coins.vout -
      if unspent coins.vout 0 || unspent coins.vout 1 then 0 else 1)
      coins.fCoinBase (unspent coins.vout 0) (unspent coins.vout 1)
  unfold headerCode
  rw [hmask, if_pos hsome]
  generalize 8 * (nonzeroBytes coins.vout -
      if unspent coins.vout 0 || unspent coins.vout 1 then 0 else 1) +
    (if coins.fCoinBase then 1 else 0) + (if unspent coins.vout 0 then 2 else 0) +
    (if unspent coins.vout 1 then 4 else 0) = nCode at *
  have hsmall : nCode < 2 ^ 32 := by omega
  refine ⟨nCode, by rw [Nat.mod_eq_of_lt hsmall], hsmall, hbase, hfirst, hsecond, ?_⟩
  rw [hdiv]
  cases hor : unspent coins.vout 0 || unspent coins.vout 1 with
  | true =>
    rw [hor] at hboth
    rw [if_pos (of_decide_eq_true hboth), if_pos rfl]
    rfl
  | false =>
    rw [hor] at hboth hsome
    rw [if_neg (of_decide_eq_false hboth), if_neg Bool.false_ne_true]
    have : nonzeroBytes coins.vout ≠ 0 := by simpa using hsome
    omega

structure Parts (C : Curve) (coins : CCoins) where
  nCode : Nat
  version : Bytes
  code : Bytes
  outs : Bytes
  height : Bytes
  headerCode_eq : headerCode coins = some nCode
  writeVersion : writeInt coins.nVersion = some version
  writeCode : writeVarInt 4 nCode = some code
  writeOuts : serializeOuts C coins.vout = some outs
  writeHeight : writeInt coins.nHeight = some height

def Parts.bytes {coins : CCoins} (p : Parts C coins) : Bytes :=
  p.version ++ p.code ++ maskOf coins.vout ++ p.outs ++ p.height

theorem Parts.serialize_eq (p : Parts C coins) (htrim : Trimmed coins.vout) :
    serialize C coins = some p.bytes := by
  unfold serialize
  rw [p.headerCode_eq, p.writeVersion, p.writeOuts, p.writeHeight, calcMaskSize_eq htrim]
  dsimp
  rw [p.writeCode]
  rfl

theorem Parts.getSerializeSize_eq (p : Parts C coins) (htrim : Trimmed coins.vout)
    (hversion : 0 ≤ coins.nVersion) (hheight : 0 ≤ coins.nHeight)
    (hsizeOuts : sizeOuts C coins.vout = some p.outs.length) :
    getSerializeSize C coins = some (p.bytes.length % 2 ^ 32) := by
  have hsize : ∀ {n : Int32} {bytes : Bytes}, 0 ≤ n → writeInt n = some bytes →
      getSizeOfInt n = bytes.length := by
    intro n bytes hn hbytes
    obtain ⟨hwrite, hsize⟩ := writeInt_eq hn
    rw [hsize]
    exact (writeVarInt_length 4 _ bytes (hwrite ▸ hbytes)).symm
  unfold getSerializeSize
  rw [p.headerCode_eq, hsizeOuts, calcMaskSize_eq htrim, hsize hversion p.writeVersion,
    hsize hheight p.writeHeight]
  dsimp only [Option.bind_eq_bind, Option.bind_some]
  rw [← writeVarInt_length 4 p.nCode p.code p.writeCode]
  simp only [Parts.bytes, length_append, length_maskOf]
  rfl

/-- Coins as they are kept in the database. Their last output is unspent, and all their numbers have
a representation. -/
structure Storable (coins : CCoins) : Prop where
  pruned : coins.isPruned = false
  trailing : coins.cleanup = coins
  version : 0 ≤ coins.nVersion
  height : 0 ≤ coins.nHeight
  vout : ∀ txout ∈ coins.vout, isNull txout = false → Compressor.Fits txout
  count : coins.vout.length + 7 < 2 ^ 32

theorem Storable.exists_parts {coins : CCoins} (h : Storable coins) (hC : C.Recovers) :
    ∃ p : Parts C coins, sizeOuts C coins.vout = some p.outs.length ∧
      ∀ suffix, unserialize C (p.bytes ++ suffix) =
        some ({ coins with vout := coins.vout.map kept }, suffix) := by
  have htrim := trimmed_of_cleanup h.trailing
  obtain ⟨nCode, hcode, hlt, hbase, hfirst, hsecond, hmaskCode⟩ :=
    headerCode_eq htrim h.pruned h.count
  obtain ⟨version, hwriteVersion, hreadVersion⟩ := writeInt_nonneg h.version
  obtain ⟨height, hwriteHeight, hreadHeight⟩ := writeInt_nonneg h.height
  obtain ⟨code, hwriteCode⟩ := writeVarInt_total 4 nCode (by decide) hlt
  obtain ⟨outs, hwriteOuts, hsizeOuts, hreadOuts⟩ :=
    unserializeOuts_serializeOuts hC coins.vout h.vout
  refine ⟨⟨nCode, version, code, outs, height, hcode, hwriteVersion, hwriteCode, hwriteOuts,
    hwriteHeight⟩, hsizeOuts, fun suffix => ?_⟩
  have hreadMask := readMask_append (maskOf coins.vout) (outs ++ (height ++ suffix))
    htrim.mask_last
  have hnonzero : (maskOf coins.vout).countP (· ≠ 0) = nonzeroBytes coins.vout := rfl
  obtain ⟨k, havail⟩ := avail_bits coins.vout
  rw [hnonzero] at hreadMask
  unfold unserialize Parts.bytes
  dsimp only
  rw [append_assoc, append_assoc, append_assoc, append_assoc, hreadVersion]
  dsimp only [Option.bind_eq_bind, Option.bind_some]
  rw [readVarInt_writeVarInt 4 nCode hlt code _ hwriteCode]
  dsimp only [Option.bind_some]
  rw [hmaskCode, hreadMask, hbase, hfirst, hsecond]
  dsimp only [Option.bind_some]
  rw [havail, hreadOuts]
  dsimp only [Option.bind_some]
  rw [hreadHeight]
  dsimp only [Option.bind_some, CCoins.cleanup]
  rw [rdropWhile_spent coins.vout htrim]
  rfl

/-- A record is read back as it was written, whatever follows it. The size that is computed for it
is its length as far as that fits in 32 bits. -/
theorem coin_record_round_trip (C : Curve) (hC : C.Recovers) (coins : CCoins)
    (h : Storable coins) :
    ∃ bytes, serialize C coins = some bytes ∧
      (∀ suffix, unserialize C (bytes ++ suffix) =
        some ({ coins with vout := coins.vout.map kept }, suffix)) ∧
      getSerializeSize C coins = some (bytes.length % 2 ^ 32) := by
  have htrim := trimmed_of_cleanup h.trailing
  obtain ⟨p, hsizeOuts, hread⟩ := h.exists_parts hC
  exact ⟨p.bytes, p.serialize_eq htrim, hread,
    p.getSerializeSize_eq htrim h.version h.height hsizeOuts⟩

def noCurve : Curve := ⟨fun _ => false, fun _ => none⟩

theorem noCurve_recovers : noCurve.Recovers := by
  intro x y _ _ last h
  cases h

def documented : CCoins where
  fCoinBase := false
  vout := [nullTxOut, ⟨60000000000, [0x76, 0xa9, 0x14, 0x81, 0x61, 0x15, 0x94, 0x4e, 0x07, 0x7f,
    0xe7, 0xc8, 0x03, 0xcf, 0xa5, 0x7f, 0x29, 0xb3, 0x6b, 0xf8, 0x7c, 0x1d, 0x35, 0x88, 0xac]⟩]
  nHeight := 203998
  nVersion := 1

theorem documented_storable : Storable documented where
  pruned := by decide
  trailing := by decide
  version := by decide
  height := by decide
  vout := by
    intro txout hmem hnull
    rcases mem_cons.mp hmem with rfl | hmem
    · cases hnull
    · obtain rfl := mem_singleton.mp hmem
      exact ⟨by decide, by decide, by decide⟩
  count := by decide

example : serialize noCurve documented = some [0x01, 0x04, 0x83, 0x58, 0x00, 0x81, 0x61, 0x15,
    0x94, 0x4e, 0x07, 0x7f, 0xe7, 0xc8, 0x03, 0xcf, 0xa5, 0x7f, 0x29, 0xb3, 0x6b, 0xf8, 0x7c,
    0x1d, 0x35, 0x8b, 0xb8, 0x5e] := by decide

theorem coin_record_round_trip_documented :
    noCurve.Recovers ∧ Storable documented ∧
      ∃ bytes, serialize noCurve documented = some bytes ∧
        (∀ suffix, unserialize noCurve (bytes ++ suffix) = some (documented, suffix)) ∧
        getSerializeSize noCurve documented = some (bytes.length % 2 ^ 32) :=
  ⟨noCurve_recovers, documented_storable,
    coin_record_round_trip noCurve noCurve_recovers documented documented_storable⟩

def twoOutputs (script : CScript) : CCoins := ⟨false, [⟨0, script⟩, ⟨0, script⟩], 0, 0⟩

theorem twoOutputs_storable (h : script.length = 2 ^ 31) :
    Storable (twoOutputs script) where
  pruned := rfl
  trailing := rfl
  version := Int32.le_refl 0
  height := Int32.le_refl 0
  vout := by
    intro txout hmem _
    obtain rfl : txout = ⟨0, script⟩ := by simpa [twoOutputs] using hmem
    have hmax : (0 : Int64).toInt ≤ MAX_MONEY := by decide
    exact ⟨Int64.le_refl 0, hmax, by rw [h]; decide⟩
  count := by
    have htwo : 2 + 7 < 2 ^ 32 := by decide
    exact htwo

theorem length_twoOutputs (h : script.length = 2 ^ 31) (p : Parts C (twoOutputs script)) :
    2 ^ 32 ≤ p.outs.length := by
  have hnull : isNull ⟨0, script⟩ = false := rfl
  have hlong : ∀ {out}, serializeTxOut C ⟨0, script⟩ = some out → 2 ^ 31 ≤ out.length :=
    fun hout => h ▸ length_serializeTxOut (by rw [h]; decide) hout
  have houts := p.writeOuts
  unfold twoOutputs at houts
  rw [serializeOuts, hnull, if_neg Bool.false_ne_true] at houts
  obtain ⟨out, hout, houts⟩ := Option.bind_eq_some_iff.mp houts
  obtain ⟨outs, hrest, houts⟩ := Option.bind_eq_some_iff.mp houts
  rw [serializeOuts, hnull, if_neg Bool.false_ne_true] at hrest
  obtain ⟨out', hout', hrest⟩ := Option.bind_eq_some_iff.mp hrest
  obtain ⟨outs', -, hrest⟩ := Option.bind_eq_some_iff.mp hrest
  have hfirst := hlong hout
  have hsecond := hlong hout'
  rw [← Option.some.inj houts, ← Option.some.inj hrest, length_append, length_append]
  omega

/-- The computed size of a record of more than 2^32 bytes is not its length. -/
theorem record_size_wraps :
    Storable (twoOutputs (List.replicate (2 ^ 31) 0x51)) ∧
      ∃ bytes, serialize noCurve (twoOutputs (List.replicate (2 ^ 31) 0x51)) = some bytes ∧
        getSerializeSize noCurve (twoOutputs (List.replicate (2 ^ 31) 0x51)) ≠
          some bytes.length := by
  have hstorable := twoOutputs_storable (length_replicate (n := 2 ^ 31) (a := (0x51 : UInt8)))
  have htrim := trimmed_of_cleanup hstorable.trailing
  obtain ⟨p, hsizeOuts, -⟩ := hstorable.exists_parts noCurve_recovers
  have hlong := length_twoOutputs length_replicate p
  refine ⟨hstorable, p.bytes, p.serialize_eq htrim, ?_⟩
  rw [p.getSerializeSize_eq htrim hstorable.version hstorable.height hsizeOuts]
  intro heq
  have hwrap := Option.some.inj heq
  simp only [Parts.bytes, length_append] at hwrap
  omega

end

end Utsuite.CoinRecord
