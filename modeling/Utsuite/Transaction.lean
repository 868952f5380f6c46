import Utsuite.WireFormat

namespace Utsuite.Transaction

open ByteWords WireFormat List

def MAX_SIZE : Nat := 0x02000000

def writeCompactSize (nSize : Nat) : Bytes :=
  if nSize < 253 then (word 1).write nSize
  else if nSize ≤ 0xffff then (word 1).write 253 ++ (word 2).write nSize
  else if nSize ≤ 0xffffffff then (word 1).write 254 ++ (word 4).write nSize
  else (word 1).write 255 ++ (word 8).write nSize

def countCompactSize (nSize n : Nat) : Nat :=
  if nSize < 253 then (word 1).count nSize n
  else if nSize ≤ 0xffff then (word 2).count nSize ((word 1).count 253 n)
  else if nSize ≤ 0xffffffff then (word 4).count nSize ((word 1).count 254 n)
  else (word 8).count nSize ((word 1).count 255 n)

def readMarked {σ : Type} (S : Stream σ) (width least : Nat) (s : σ) : Option (Nat × σ) := do
  let (nSizeRet, s) ← (word width).read S s
  if nSizeRet < least then none else pure (nSizeRet, s)

def readSizeRet {σ : Type} (S : Stream σ) (chSize : Nat) (s : σ) : Option (Nat × σ) :=
  if chSize < 253 then some (chSize, s)
  else if chSize = 253 then readMarked S 2 253 s
  else if chSize = 254 then readMarked S 4 0x10000 s
  else readMarked S 8 0x100000000 s

def readCompactSize {σ : Type} (S : Stream σ) (s : σ) : Option (Nat × σ) := do
  let (chSize, s) ← (word 1).read S s
  let (nSizeRet, s) ← readSizeRet S chSize s
  if nSizeRet > MAX_SIZE then none else pure (nSizeRet, s)

def compactSize : Format Nat where
  write := writeCompactSize
  count := countCompactSize
  read := readCompactSize

abbrev uint256 := {bytes : Bytes // bytes.length = 32}

abbrev CScript := Bytes

structure COutPoint where
  hash : uint256
  n : UInt32
  deriving DecidableEq

structure CTxIn where
  prevout : COutPoint
  scriptSig : CScript
  nSequence : UInt32
  deriving DecidableEq

structure CTxOut where
  nValue : Int64
  scriptPubKey : CScript
  deriving DecidableEq

structure CMutableTransaction where
  nVersion : Int32
  vin : List CTxIn
  vout : List CTxOut
  nLockTime : UInt32
  deriving DecidableEq

def uint32Format : Format UInt32 := (word 4).iso UInt32.ofNat UInt32.toNat

def int32Format : Format Int32 := uint32Format.iso UInt32.toInt32 Int32.toUInt32

def int64Format : Format Int64 :=
  (word 8).iso (fun n => (UInt64.ofNat n).toInt64) fun a => a.toUInt64.toNat

def scriptFormat : Format CScript := compactSize.sized (blobInBlocks (1 + 4999999))

def vectorFormat {α : Type} (f : Format α) (sizeof : Nat) : Format (List α) :=
  compactSize.sized (itemsInBlocks f (5000000 / sizeof))

def outPointFormat : Format COutPoint :=
  ((array 32).pair uint32Format).iso (fun p => ⟨p.1, p.2⟩) fun o => (o.hash, o.n)

def txInFormat : Format CTxIn :=
  (outPointFormat.pair (scriptFormat.pair uint32Format)).iso (fun p => ⟨p.1, p.2.1, p.2.2⟩)
    fun i => (i.prevout, i.scriptSig, i.nSequence)

def txOutFormat : Format CTxOut :=
  (int64Format.pair scriptFormat).iso (fun p => ⟨p.1, p.2⟩) fun o => (o.nValue, o.scriptPubKey)

/-- The wire format of a transaction. The numbers are the sizes of `CTxIn` and `CTxOut` in memory,
which bound the blocks that are read. -/
def transactionFormat : Format CMutableTransaction :=
  (int32Format.pair ((vectorFormat txInFormat 104).pair
    ((vectorFormat txOutFormat 48).pair uint32Format))).iso
    (fun p => ⟨p.1, p.2.1, p.2.2.1, p.2.2.2⟩) fun tx => (tx.nVersion, tx.vin, tx.vout, tx.nLockTime)

def getSerializeSize (tx : CMutableTransaction) : Nat := transactionFormat.count tx 0

structure Fits (tx : CMutableTransaction) : Prop where
  vin_le : tx.vin.length ≤ MAX_SIZE
  vout_le : tx.vout.length ≤ MAX_SIZE
  scriptSig_le : ∀ i ∈ tx.vin, i.scriptSig.length ≤ MAX_SIZE
  scriptPubKey_le : ∀ o ∈ tx.vout, o.scriptPubKey.length ≤ MAX_SIZE

structure CDataStream where
  vch : Bytes
  nReadPos : Nat

def CDataStream.read (nSize : Nat) (s : CDataStream) : Option (Bytes × CDataStream) :=
  let nReadPosNext := (s.nReadPos + nSize) % 2 ^ 32
  let pch := (s.vch.drop s.nReadPos).take nSize
  if nReadPosNext ≥ s.vch.length then
    if nReadPosNext > s.vch.length then none else some (pch, ⟨[], 0⟩)
  else some (pch, ⟨s.vch, nReadPosNext⟩)

def CDataStream.empty (s : CDataStream) : Bool := s.vch.length == s.nReadPos

def dataStream : Stream CDataStream := ⟨CDataStream.read⟩

/-- The transactions in the bytes of a hexadecimal text. `none` is an error or a loop of more than
`rounds` rounds. -/
def decodeTransactions (rounds : Nat) (txData : Bytes) : Option (List CMutableTransaction) :=
  readAll transactionFormat dataStream CDataStream.empty rounds ⟨txData, 0⟩

theorem readMarked_write (hn : n < 256 ^ width) (hleast : least ≤ n) (rest : Bytes) :
    readMarked front width least ((word width).write n ++ rest) = some (n, rest) := by
  rw [readMarked, (word_canonical width).read_write n rest hn]
  exact if_neg (not_lt.mpr hleast)

theorem write_readMarked (h : readMarked front width least bytes = some (n, rest)) :
    (n < 256 ^ width ∧ least ≤ n) ∧ bytes = (word width).write n ++ rest := by
  obtain ⟨⟨m, tail⟩, hm, h⟩ := Option.bind_eq_some_iff.mp h
  dsimp only at h
  by_cases hlt : m < least
  · rw [if_pos hlt] at h
    cases h
  · rw [if_neg hlt] at h
    cases h
    obtain ⟨hbound, hbytes⟩ := (word_canonical width).write_read _ _ _ hm
    exact ⟨⟨hbound, not_lt.mp hlt⟩, hbytes⟩

theorem readMarked_natural (h : Simulates S T R) (width least : Nat) :
    Follows R (readMarked S width least) (readMarked T width least) :=
  ((word_canonical width).natural h).bind fun n => .ite (n < least) fun _ => .pure n

theorem count_word (width a n : Nat) : (word width).count a n = (n + width) % 2 ^ 64 := by
  change (n + (leBytes width a).length) % 2 ^ 64 = _
  rw [leBytes_length]

theorem length_word (width a : Nat) : ((word width).write a).length = width := leBytes_length width a

theorem exists_mark (hn : n < 2 ^ 64) (rest : Bytes) :
    ∃ chSize mid, chSize < 256 ∧ writeCompactSize n ++ rest = (word 1).write chSize ++ mid ∧
      readSizeRet front chSize mid = some (n, rest) := by
  by_cases h₁ : n < 253
  · refine ⟨n, rest, by omega, ?_, if_pos h₁⟩
    rw [writeCompactSize, if_pos h₁]
  by_cases h₂ : n ≤ 0xffff
  · refine ⟨253, (word 2).write n ++ rest, by omega, ?_, ?_⟩
    · rw [writeCompactSize, if_neg h₁, if_pos h₂, append_assoc]
    · rw [readSizeRet, if_neg (by decide), if_pos rfl, readMarked_write (by omega) (by omega)]
  by_cases h₃ : n ≤ 0xffffffff
  · refine ⟨254, (word 4).write n ++ rest, by omega, ?_, ?_⟩
    · rw [writeCompactSize, if_neg h₁, if_neg h₂, if_pos h₃, append_assoc]
    · rw [readSizeRet, if_neg (by decide), if_neg (by decide), if_pos rfl,
        readMarked_write (by omega) (by omega)]
  · refine ⟨255, (word 8).write n ++ rest, by omega, ?_, ?_⟩
    · rw [writeCompactSize, if_neg h₁, if_neg h₂, if_neg h₃, append_assoc]
    · rw [readSizeRet, if_neg (by decide), if_neg (by decide), if_neg (by decide),
        readMarked_write (by omega) (by omega)]

theorem compactSize_selfDelimiting :
    SelfDelimiting fun n : {n : Nat // n < 2 ^ 64} => writeCompactSize n := by
  intro n n' rest rest' heq
  obtain ⟨chSize, mid, hmark, hbytes, hsize⟩ := exists_mark n.2 rest
  obtain ⟨chSize', mid', hmark', hbytes', hsize'⟩ := exists_mark n'.2 rest'
  have hread := (word_canonical 1).read_write chSize mid hmark
  rw [← hbytes, heq, hbytes', (word_canonical 1).read_write chSize' mid' hmark'] at hread
  cases hread
  rw [hsize] at hsize'
  obtain ⟨hn, hrest⟩ := Prod.mk.inj (Option.some.inj hsize')
  exact ⟨Subtype.ext hn, hrest⟩

theorem readCompactSize_write (hn : n ≤ MAX_SIZE) (rest : Bytes) :
    readCompactSize front (writeCompactSize n ++ rest) = some (n, rest) := by
  obtain ⟨chSize, mid, hmark, hbytes, hsize⟩ := exists_mark (lt_of_le_of_lt hn (by decide)) rest
  rw [hbytes, readCompactSize, (word_canonical 1).read_write chSize mid hmark]
  change (readSizeRet front chSize mid).bind _ = _
  rw [hsize]
  exact if_neg (not_lt.mpr hn)

theorem write_readSizeRet (hmark : chSize < 256) (h : readSizeRet front chSize mid = some (n, rest)) :
    (word 1).write chSize ++ mid = writeCompactSize n ++ rest := by
  rw [readSizeRet] at h
  rw [writeCompactSize]
  by_cases h₁ : chSize < 253
  · rw [if_pos h₁] at h
    cases h
    rw [if_pos h₁]
  rw [if_neg h₁] at h
  by_cases h₂ : chSize = 253
  · rw [if_pos h₂] at h
    obtain ⟨⟨hlt, hle⟩, rfl⟩ := write_readMarked h
    rw [if_neg (by omega), if_pos (by omega), h₂, append_assoc]
  rw [if_neg h₂] at h
  by_cases h₃ : chSize = 254
  · rw [if_pos h₃] at h
    obtain ⟨⟨hlt, hle⟩, rfl⟩ := write_readMarked h
    rw [if_neg (by omega), if_neg (by omega), if_pos (by omega), h₃, append_assoc]
  · rw [if_neg h₃] at h
    obtain ⟨⟨hlt, hle⟩, rfl⟩ := write_readMarked h
    obtain rfl : chSize = 255 := by omega
    rw [if_neg (by omega), if_neg (by omega), if_neg (by omega), append_assoc]

theorem write_readCompactSize (h : readCompactSize front bytes = some (n, rest)) :
    n ≤ MAX_SIZE ∧ bytes = writeCompactSize n ++ rest := by
  obtain ⟨⟨chSize, mid⟩, hmark, hrest⟩ := Option.bind_eq_some_iff.mp h
  obtain ⟨⟨m, tail⟩, hsize, hlimit⟩ := Option.bind_eq_some_iff.mp hrest
  obtain ⟨hbyte, rfl⟩ := (word_canonical 1).write_read _ _ _ hmark
  dsimp only at hlimit
  by_cases hmax : m > MAX_SIZE
  · rw [if_pos hmax] at hlimit
    cases hlimit
  · rw [if_neg hmax] at hlimit
    cases hlimit
    exact ⟨not_lt.mp hmax, write_readSizeRet hbyte hsize⟩

theorem readSizeRet_natural (h : Simulates S T R) (chSize : Nat) :
    Follows R (readSizeRet S chSize) (readSizeRet T chSize) := by
  unfold readSizeRet
  split_ifs
  · exact .pure chSize
  · exact readMarked_natural h 2 253
  · exact readMarked_natural h 4 0x10000
  · exact readMarked_natural h 8 0x100000000

theorem compactSize_canonical : compactSize.Canonical fun n => n ≤ MAX_SIZE where
  count_eq nSize n hn := by
    change countCompactSize nSize n = (n + (writeCompactSize nSize).length) % 2 ^ 64
    rw [countCompactSize, writeCompactSize]
    split_ifs <;> simp [length_word, count_word]
  read_write _ rest hn := readCompactSize_write hn rest
  write_read _ _ _ h := write_readCompactSize h
  natural h := ((word_canonical 1).natural h).bind fun chSize =>
    (readSizeRet_natural h chSize).bind fun n => .ite (n > MAX_SIZE) fun _ => .pure n

theorem uint32Format_canonical : uint32Format.Canonical fun _ => True := by
  refine (word_canonical 4).iso (fun b _ => ⟨UInt32.ofNat_toNat, b.toNat_lt⟩) fun n hn => ?_
  exact ⟨UInt32.toNat_ofNat_of_lt' hn, trivial⟩

theorem int32Format_canonical : int32Format.Canonical fun _ => True :=
  uint32Format_canonical.iso (fun _ _ => ⟨rfl, trivial⟩) fun _ _ => ⟨rfl, trivial⟩

theorem int64Format_canonical : int64Format.Canonical fun _ => True := by
  refine (word_canonical 8).iso (fun b _ => ⟨?_, b.toUInt64.toNat_lt⟩) fun n hn => ?_
  · rw [UInt64.ofNat_toNat]
    rfl
  · refine ⟨?_, trivial⟩
    change (UInt64.ofNat n).toNat = n
    exact UInt64.toNat_ofNat_of_lt' hn

theorem scriptFormat_canonical :
    scriptFormat.Canonical fun script => script.length ≤ MAX_SIZE := by
  have hbody : ∀ size, (blobInBlocks (1 + 4999999) size).Canonical
      fun script => script.length = size ∧ True := by
    intro size
    simp only [and_true]
    exact blobInBlocks_canonical (by decide) size
  have hsized := sized_canonical compactSize_canonical hbody
  simp only [and_true] at hsized
  exact hsized

theorem vectorFormat_canonical (hf : f.Canonical p) (hpos : 0 < sizeof) (hle : sizeof ≤ 5000000) :
    (vectorFormat f sizeof).Canonical fun v => v.length ≤ MAX_SIZE ∧ ∀ a ∈ v, p a :=
  sized_canonical compactSize_canonical fun size =>
    itemsInBlocks_canonical hf (Nat.div_pos hle hpos) size

theorem outPointFormat_canonical : outPointFormat.Canonical fun _ => True :=
  ((array_canonical 32).pair uint32Format_canonical).iso
    (fun _ _ => ⟨rfl, trivial, trivial⟩) fun _ _ => ⟨rfl, trivial⟩

theorem txInFormat_canonical :
    txInFormat.Canonical fun i => i.scriptSig.length ≤ MAX_SIZE :=
  (outPointFormat_canonical.pair (scriptFormat_canonical.pair uint32Format_canonical)).iso
    (fun _ h => ⟨rfl, trivial, h, trivial⟩) fun _ h => ⟨rfl, h.2.1⟩

theorem txOutFormat_canonical :
    txOutFormat.Canonical fun o => o.scriptPubKey.length ≤ MAX_SIZE :=
  (int64Format_canonical.pair scriptFormat_canonical).iso (fun _ h => ⟨rfl, trivial, h⟩)
    fun _ h => ⟨rfl, h.2⟩

theorem transactionFormat_canonical : transactionFormat.Canonical Fits :=
  (int32Format_canonical.pair
    ((vectorFormat_canonical txInFormat_canonical (by decide) (by decide)).pair
      ((vectorFormat_canonical txOutFormat_canonical (by decide) (by decide)).pair
        uint32Format_canonical))).iso
    (fun _ h => ⟨rfl, trivial, ⟨h.vin_le, h.scriptSig_le⟩, ⟨h.vout_le, h.scriptPubKey_le⟩, trivial⟩)
    fun _ h => ⟨rfl, h.2.1.1, h.2.2.1.1, h.2.1.2, h.2.2.1.2⟩

theorem length_writeCompactSize (n : Nat) : (writeCompactSize n).length ≤ 9 := by
  rw [writeCompactSize]
  split_ifs <;> simp only [length_append, length_word] <;> decide

theorem length_flatMap_le {α : Type} (f : α → Bytes) (bound : Nat) {as : List α}
    (h : ∀ a ∈ as, (f a).length ≤ bound) : (as.flatMap f).length ≤ as.length * bound := by
  induction as with
  | nil => exact Nat.zero_le _
  | cons a as ih =>
    have hrest := ih fun b hb => h b (mem_cons_of_mem _ hb)
    have hfirst := h a mem_cons_self
    rw [flatMap_cons, length_append, length_cons, Nat.succ_mul]
    omega

theorem length_txIn (i : CTxIn) :
    (txInFormat.write i).length =
      40 + (writeCompactSize i.scriptSig.length).length + i.scriptSig.length := by
  change ((i.prevout.hash.val ++ leBytes 4 i.prevout.n.toNat) ++
    ((writeCompactSize i.scriptSig.length ++ i.scriptSig) ++ leBytes 4 i.nSequence.toNat)).length = _
  simp only [length_append, leBytes_length, i.prevout.hash.property]
  omega

theorem length_txOut (o : CTxOut) :
    (txOutFormat.write o).length =
      8 + (writeCompactSize o.scriptPubKey.length).length + o.scriptPubKey.length := by
  change (leBytes 8 o.nValue.toUInt64.toNat ++
    (writeCompactSize o.scriptPubKey.length ++ o.scriptPubKey)).length = _
  simp only [length_append, leBytes_length]
  omega

theorem length_transaction (tx : CMutableTransaction) :
    (transactionFormat.write tx).length =
      8 + ((writeCompactSize tx.vin.length).length + (tx.vin.flatMap txInFormat.write).length) +
        ((writeCompactSize tx.vout.length).length + (tx.vout.flatMap txOutFormat.write).length) := by
  change (leBytes 4 tx.nVersion.toUInt32.toNat ++
    ((writeCompactSize tx.vin.length ++ tx.vin.flatMap txInFormat.write) ++
      ((writeCompactSize tx.vout.length ++ tx.vout.flatMap txOutFormat.write) ++
        leBytes 4 tx.nLockTime.toNat))).length = _
  simp only [length_append, leBytes_length]
  omega

theorem length_transaction_lt {tx : CMutableTransaction} (h : Fits tx) :
    (transactionFormat.write tx).length < 2 ^ 64 := by
  have hin : ∀ i ∈ tx.vin, (txInFormat.write i).length ≤ MAX_SIZE + 49 := by
    intro i hi
    have hsize := length_writeCompactSize i.scriptSig.length
    have hscript := h.scriptSig_le i hi
    rw [length_txIn]
    omega
  have hout : ∀ o ∈ tx.vout, (txOutFormat.write o).length ≤ MAX_SIZE + 17 := by
    intro o ho
    have hsize := length_writeCompactSize o.scriptPubKey.length
    have hscript := h.scriptPubKey_le o ho
    rw [length_txOut]
    omega
  have hin := length_flatMap_le _ _ hin
  have hout := length_flatMap_le _ _ hout
  have hin' := Nat.mul_le_mul_right (MAX_SIZE + 49) h.vin_le
  have hout' := Nat.mul_le_mul_right (MAX_SIZE + 17) h.vout_le
  have hvin := length_writeCompactSize tx.vin.length
  have hvout := length_writeCompactSize tx.vout.length
  unfold MAX_SIZE at *
  rw [length_transaction]
  omega

theorem getSerializeSize_eq (h : Fits tx) :
    getSerializeSize tx = (transactionFormat.write tx).length := by
  rw [getSerializeSize, transactionFormat_canonical.count_eq tx 0 (by decide), zero_add,
    Nat.mod_eq_of_lt (length_transaction_lt h)]

def Unread (s : CDataStream) (bytes : Bytes) : Prop :=
  s.vch.length < 2 ^ 32 ∧ s.nReadPos ≤ s.vch.length ∧ bytes = s.vch.drop s.nReadPos

theorem dataStream_simulates : Simulates dataStream front Unread := by
  rintro nSize ⟨vch, nReadPos⟩ _ ⟨hlt, hpos, rfl⟩ pch rest hread
  dsimp only [front] at hlt hpos hread
  by_cases hsize : nSize ≤ (vch.drop nReadPos).length
  · rw [if_pos hsize] at hread
    cases hread
    rw [length_drop] at hsize
    have hnext : (nReadPos + nSize) % 2 ^ 32 = nReadPos + nSize := Nat.mod_eq_of_lt (by omega)
    by_cases hend : nReadPos + nSize ≥ vch.length
    · refine ⟨⟨[], 0⟩, ?_, by decide, le_rfl, ?_⟩
      · dsimp only [dataStream, CDataStream.read]
        rw [hnext, if_pos hend, if_neg (by omega)]
      · rw [drop_drop, drop_eq_nil_of_le hend]
        rfl
    · refine ⟨⟨vch, nReadPos + nSize⟩, ?_, hlt, by dsimp only; omega, drop_drop⟩
      dsimp only [dataStream, CDataStream.read]
      rw [hnext, if_neg hend]
  · rw [if_neg hsize] at hread
    cases hread

theorem unread_empty (s : CDataStream) (bytes : Bytes) (h : Unread s bytes) :
    s.empty = true ↔ bytes = [] := by
  obtain ⟨-, hpos, rfl⟩ := h
  rw [CDataStream.empty, beq_iff_eq, drop_eq_nil_iff]
  omega

theorem write_transaction_ne_nil (tx : CMutableTransaction) : transactionFormat.write tx ≠ [] := by
  intro hnil
  have hlen := length_transaction tx
  rw [hnil, length_nil] at hlen
  omega

theorem decodeTransactions_flatMap (h : ∀ tx ∈ txs, Fits tx)
    (hlt : (txs.flatMap transactionFormat.write).length < 2 ^ 32) (hrounds : txs.length ≤ rounds) :
    decodeTransactions rounds (txs.flatMap transactionFormat.write) = some txs :=
  readAll_flatMap transactionFormat_canonical write_transaction_ne_nil dataStream_simulates
    unread_empty h ⟨hlt, Nat.zero_le _, rfl⟩ hrounds

/-- A transaction is read back from what was written, and from nothing else. Lists of transactions
are decoded as long as they have fewer than `2 ^ 32` bytes. -/
theorem transaction_wire_format :
    (∀ tx suffix, Fits tx →
      transactionFormat.read front (transactionFormat.write tx ++ suffix) = some (tx, suffix) ∧
      getSerializeSize tx = (transactionFormat.write tx).length) ∧
    (∀ bytes tx rest, transactionFormat.read front bytes = some (tx, rest) →
      transactionFormat.write tx ++ rest = bytes) ∧
    ∀ txs, (∀ tx ∈ txs, Fits tx) → (txs.flatMap transactionFormat.write).length < 2 ^ 32 →
      ∀ rounds, txs.length ≤ rounds →
        decodeTransactions rounds (txs.flatMap transactionFormat.write) = some txs := by
  refine ⟨fun tx suffix h => ?_, fun bytes tx rest h => ?_, fun txs h hlt rounds hrounds => ?_⟩
  · exact ⟨transactionFormat_canonical.read_write tx suffix h, getSerializeSize_eq h⟩
  · exact (transactionFormat_canonical.write_read bytes tx rest h).2.symm
  · exact decodeTransactions_flatMap h hlt hrounds

def zeroTransaction : CMutableTransaction := ⟨0, [], [], 0⟩

def sampleTxid : uint256 := ⟨replicate 32 0x11, length_replicate⟩

def spendTransaction : CMutableTransaction where
  nVersion := 2
  vin := [⟨⟨sampleTxid, 1⟩, [0x01, 0x2a, 0x51], 0xfffffffe⟩]
  vout := [⟨50000, [0x76, 0xa9, 0x88, 0xac]⟩, ⟨-1, []⟩]
  nLockTime := 17

theorem transaction_wire_format_spend :
    transactionFormat.read front (transactionFormat.write spendTransaction ++ [7]) =
      some (spendTransaction, [7]) ∧
    getSerializeSize spendTransaction = 76 ∧
    decodeTransactions 2 (transactionFormat.write spendTransaction ++
      transactionFormat.write zeroTransaction) = some [spendTransaction, zeroTransaction] := by
  have hspend : Fits spendTransaction := by
    constructor <;> simp [spendTransaction, MAX_SIZE]
  have hzero : Fits zeroTransaction := by
    constructor <;> simp [zeroTransaction]
  obtain ⟨hread, -, hloop⟩ := transaction_wire_format
  obtain ⟨hfront, hsize⟩ := hread spendTransaction [7] hspend
  refine ⟨hfront, hsize, ?_⟩
  exact hloop [spendTransaction, zeroTransaction] (by simpa using ⟨hspend, hzero⟩) (by decide) 2 le_rfl

def Endless (s : CDataStream) : Prop := 2 ^ 32 ≤ s.vch.length ∧ s.nReadPos < 2 ^ 32

theorem endless_read (nSize : Nat) (s : CDataStream) (pch : Bytes) (s' : CDataStream)
    (h : Endless s) (hread : dataStream.read nSize s = some (pch, s')) : Endless s' := by
  have hnext := Nat.mod_lt (s.nReadPos + nSize) (show 0 < 2 ^ 32 by decide)
  dsimp only [dataStream, CDataStream.read] at hread
  rw [if_neg (not_le.mpr (lt_of_lt_of_le hnext h.1))] at hread
  cases hread
  exact ⟨h.1, hnext⟩

theorem endless_not_empty (s : CDataStream) (h : Endless s) : ¬s.empty = true := by
  rw [CDataStream.empty, beq_iff_eq]
  exact ne_of_gt (lt_of_lt_of_le h.2 h.1)

theorem decodeTransactions_long (h : 2 ^ 32 ≤ txData.length) (rounds : Nat) :
    decodeTransactions rounds txData = none :=
  readAll_endless transactionFormat_canonical endless_read endless_not_empty rounds
    ⟨h, Nat.two_pow_pos 32⟩

theorem write_replicate (count : Nat) :
    (replicate count zeroTransaction).flatMap transactionFormat.write =
      replicate (10 * count) 0 := by
  have hten : transactionFormat.write zeroTransaction = replicate 10 0 := by decide
  induction count with
  | zero => rfl
  | succ count ih =>
    rw [replicate_succ, flatMap_cons, ih, hten, replicate_append_replicate,
      Nat.mul_succ, add_comm]

/-- A list with `2 ^ 32` bytes or more is not decoded, since the read position wraps around. -/
theorem decode_too_long :
    ∃ txs, (∀ tx ∈ txs, Fits tx) ∧
      ∀ rounds, decodeTransactions rounds (txs.flatMap transactionFormat.write) ≠ some txs := by
  refine ⟨replicate 429496731 zeroTransaction, fun tx htx => ?_, fun rounds => ?_⟩
  · rw [eq_of_mem_replicate htx]
    constructor <;> simp [zeroTransaction]
  · have hlength : 2 ^ 32 ≤ 10 * 429496731 := by decide
    rw [decodeTransactions_long (by rwa [write_replicate, length_replicate])]
    exact nofun

end Utsuite.Transaction
