import Utsuite.PrivKey
import Utsuite.PubKeyStream

namespace Utsuite.ExtKey

open ByteWords List
open UosAddress (getLen)
open PrivKey (Point order seckeyVerify pubkeySerialize SECP256K1_EC_COMPRESSED
  SECP256K1_EC_UNCOMPRESSED)
open PubKeyStream (CPubKey)

abbrev Block (n : Nat) := {bytes : Bytes // bytes.length = n}

def Block.slice {n : Nat} (block : Block n) (start size : Nat) (h : start + size ≤ n) : Block size :=
  ⟨(block.1.drop start).take size, by
    rw [length_take, length_drop, block.2]
    omega⟩

/-- The operations of the curve and the hashes. A sum that is `none` is the point at infinity. -/
structure Crypto where
  ecmultGen : Nat → Point
  ecmultAdd : Point → Nat → Option Point
  pubkeyParse : Bytes → Option Point
  hmacSha512 : Bytes → Bytes → Block 64
  hash160 : Bytes → Block 20

inductive Abort
  | assertion
  deriving DecidableEq

def ensure (condition : Bool) : Except Abort Unit :=
  if condition then .ok () else .error .assertion

def bigEndian (n : UInt32) : Bytes :=
  [((n >>> 24) &&& 0xFF).toUInt8, ((n >>> 16) &&& 0xFF).toUInt8, ((n >>> 8) &&& 0xFF).toUInt8,
    (n &&& 0xFF).toUInt8]

def ofBigEndian (a b c d : UInt8) : UInt32 :=
  (a.toUInt32 <<< 24) ||| (b.toUInt32 <<< 16) ||| (c.toUInt32 <<< 8) ||| d.toUInt32

def scalar32 (n : Nat) : Block 32 := beBlock 32 n

def privkeyTweakAdd (seckey tweak : Block 32) : Bool × Block 32 :=
  let sec := (beValue seckey.1 % order + beValue tweak.1) % order
  if beValue tweak.1 < order ∧ sec ≠ 0 then (true, scalar32 sec)
  else (false, scalar32 0)

structure CKey where
  fValid : Bool
  fCompressed : Bool
  vch : Block 32

namespace CKey

def size (key : CKey) : Nat := if key.fValid then 32 else 0

def Same (a b : CKey) : Prop :=
  a.fCompressed = b.fCompressed ∧ a.size = b.size ∧ a.vch.1.take a.size = b.vch.1.take a.size

def set (key : CKey) (data : Block 32) (fCompressedIn : Bool) : CKey :=
  if seckeyVerify data.1 then ⟨true, fCompressedIn, data⟩ else { key with fValid := false }

end CKey

def setPubKey (pubkey : CPubKey) (data : Bytes) : CPubKey :=
  let len := if data = [] then 0 else getLen (data.headD 0)
  if len ≠ 0 ∧ len = data.length then pubkey.overwrite data else pubkey.invalidate

def unsetPubKey : CPubKey := ⟨0xFF :: replicate 64 0, rfl⟩

structure CExtKey where
  nDepth : UInt8
  vchFingerprint : Block 4
  nChild : UInt32
  chaincode : Block 32
  key : CKey

structure CExtPubKey where
  nDepth : UInt8
  vchFingerprint : Block 4
  nChild : UInt32
  chaincode : Block 32
  pubkey : CPubKey

def CExtKey.Same (a b : CExtKey) : Prop :=
  a.nDepth = b.nDepth ∧ a.vchFingerprint = b.vchFingerprint ∧ a.nChild = b.nChild ∧
    a.chaincode = b.chaincode ∧ a.key.Same b.key

def CExtPubKey.Same (a b : CExtPubKey) : Prop :=
  a.nDepth = b.nDepth ∧ a.vchFingerprint = b.vchFingerprint ∧ a.nChild = b.nChild ∧
    a.chaincode = b.chaincode ∧ a.pubkey.Same b.pubkey

section

variable (C : Crypto)

def pubkeyCreate (seckey : Bytes) : Option Point :=
  if seckeyVerify seckey then some (C.ecmultGen (beValue seckey)) else none

def pubkeyTweakAdd (pubkey : Point) (tweak : Block 32) : Option Point :=
  if beValue tweak.1 < order then C.ecmultAdd pubkey (beValue tweak.1) else none

def bip32Hash (chainCode : Block 32) (nChild : UInt32) (header : UInt8) (data : Bytes) : Block 64 :=
  C.hmacSha512 chainCode.1 ([header] ++ data ++ bigEndian nChild)

def CKey.getPubKey (key : CKey) : Except Abort CPubKey := do
  ensure key.fValid
  match pubkeyCreate C key.vch.1 with
  | none => .error .assertion
  | some pubkey =>
    let data := pubkeySerialize pubkey
      (if key.fCompressed then SECP256K1_EC_COMPRESSED else SECP256K1_EC_UNCOMPRESSED)
    let result := unsetPubKey.overwrite data
    ensure (result.size == data.length)
    ensure (0 < result.size)
    .ok result

def getID (pubkey : CPubKey) : Block 20 := C.hash160 pubkey.bytes

def tail32 (pubkey : CPubKey) : Bytes := (pubkey.vch.drop 1).take 32

def CKey.childHash (key : CKey) (nChild : UInt32) (cc : Block 32) : Except Abort (Block 64) :=
  if nChild >>> 31 = 0 then do
    let pubkey ← key.getPubKey C
    ensure (pubkey.size == 33)
    .ok (bip32Hash C cc nChild pubkey.header (tail32 pubkey))
  else do
    ensure (key.size == 32)
    .ok (bip32Hash C cc nChild 0 key.vch.1)

def CKey.derive (key : CKey) (nChild : UInt32) (cc : Block 32) :
    Except Abort (Bool × CKey × Block 32) := do
  ensure key.fValid
  ensure key.fCompressed
  let out ← key.childHash C nChild cc
  let ret := privkeyTweakAdd key.vch (out.slice 0 32 (by decide))
  .ok (ret.1, ⟨ret.1, true, ret.2⟩, out.slice 32 32 (by decide))

def CExtKey.derive (k : CExtKey) (nChild : UInt32) : Except Abort (Bool × CExtKey) := do
  let pubkey ← k.key.getPubKey C
  let (ret, key, chaincode) ← k.key.derive C nChild k.chaincode
  .ok (ret, ⟨k.nDepth + 1, (getID C pubkey).slice 0 4 (by decide), nChild, chaincode, key⟩)

def CExtKey.neuter (k : CExtKey) : Except Abort CExtPubKey := do
  let pubkey ← k.key.getPubKey C
  .ok ⟨k.nDepth, k.vchFingerprint, k.nChild, k.chaincode, pubkey⟩

def derivePubKey (pubkey pubkeyChild : CPubKey) (nChild : UInt32) (cc : Block 32) :
    Except Abort (Bool × CPubKey × Block 32) := do
  ensure (0 < pubkey.size)
  ensure (nChild >>> 31 == 0)
  ensure (pubkey.size == 33)
  let out := bip32Hash C cc nChild pubkey.header (tail32 pubkey)
  let ccChild := out.slice 32 32 (by decide)
  match C.pubkeyParse pubkey.bytes with
  | none => .ok (false, pubkeyChild, ccChild)
  | some point =>
    match pubkeyTweakAdd C point (out.slice 0 32 (by decide)) with
    | none => .ok (false, pubkeyChild, ccChild)
    | some child =>
      .ok (true, setPubKey pubkeyChild (pubkeySerialize child SECP256K1_EC_COMPRESSED), ccChild)

def CExtPubKey.derive (k : CExtPubKey) (out : CPubKey) (nChild : UInt32) :
    Except Abort (Bool × CExtPubKey) := do
  let (ret, pubkey, chaincode) ← derivePubKey C k.pubkey out nChild k.chaincode
  .ok (ret, ⟨k.nDepth + 1, (getID C k.pubkey).slice 0 4 (by decide), nChild, chaincode, pubkey⟩)

def CExtKey.derivePath : List UInt32 → CExtKey → Except Abort (Option CExtKey)
  | [], k => .ok (some k)
  | nChild :: path, k => do
    let (ret, child) ← k.derive C nChild
    if ret then CExtKey.derivePath path child else .ok none

def CExtPubKey.derivePath : List UInt32 → CExtPubKey → Except Abort (Option CExtPubKey)
  | [], k => .ok (some k)
  | nChild :: path, k => do
    let (ret, child) ← k.derive C unsetPubKey nChild
    if ret then CExtPubKey.derivePath path child else .ok none

end

def CExtKey.encode (k : CExtKey) : Except Abort Bytes := do
  ensure (k.key.size == 32)
  .ok ([k.nDepth] ++ k.vchFingerprint.1 ++ bigEndian k.nChild ++ k.chaincode.1 ++ [0] ++ k.key.vch.1)

def CExtPubKey.encode (k : CExtPubKey) : Except Abort Bytes := do
  ensure (k.pubkey.size == 33)
  .ok ([k.nDepth] ++ k.vchFingerprint.1 ++ bigEndian k.nChild ++ k.chaincode.1 ++ k.pubkey.vch.take 33)

def codeChild (code : Block 74) : UInt32 :=
  ofBigEndian (code.1.getD 5 0) (code.1.getD 6 0) (code.1.getD 7 0) (code.1.getD 8 0)

def CExtKey.decode (k : CExtKey) (code : Block 74) : CExtKey where
  nDepth := code.1.getD 0 0
  vchFingerprint := code.slice 1 4 (by decide)
  nChild := codeChild code
  chaincode := code.slice 9 32 (by decide)
  key := k.key.set (code.slice 42 32 (by decide)) true

def CExtPubKey.decode (k : CExtPubKey) (code : Block 74) : CExtPubKey where
  nDepth := code.1.getD 0 0
  vchFingerprint := code.slice 1 4 (by decide)
  nChild := codeChild code
  chaincode := code.slice 9 32 (by decide)
  pubkey := setPubKey k.pubkey (code.slice 41 33 (by decide)).1

theorem setWidth_mask (x : BitVec 32) : (x &&& 255#32).setWidth 8 = x.setWidth 8 := by
  rw [BitVec.setWidth_and]
  exact BitVec.and_allOnes

theorem getLsbD_byte (x : BitVec 32) (k : Nat) (hi : i < 32) :
    (((x >>> k).setWidth 8).setWidth 32 <<< k).getLsbD i =
      (decide (k ≤ i ∧ i < k + 8) && x.getLsbD i) := by
  rw [BitVec.getLsbD_shiftLeft, BitVec.getLsbD_setWidth, BitVec.getLsbD_setWidth,
    BitVec.getLsbD_ushiftRight]
  by_cases hk : k ≤ i
  · have hidx : k + (i - k) = i := by omega
    have hbyte : (i - k < 8) = (k ≤ i ∧ i < k + 8) := by
      apply propext
      omega
    have hword : i - k < 32 := by omega
    rw [hidx, decide_eq_true hi, decide_eq_false (by omega : ¬ i < k), decide_eq_true hword]
    simp [hbyte]
  · rw [decide_eq_true (by omega : i < k), decide_eq_false (fun h : k ≤ i ∧ i < k + 8 => hk h.1)]
    simp

theorem ofBigEndian_bigEndian (n : UInt32) :
    ofBigEndian ((n >>> 24) &&& 0xFF).toUInt8 ((n >>> 16) &&& 0xFF).toUInt8
      ((n >>> 8) &&& 0xFF).toUInt8 (n &&& 0xFF).toUInt8 = n := by
  apply UInt32.eq_of_toBitVec_eq
  change (((n.toBitVec >>> 24 &&& 255#32).setWidth 8).setWidth 32 <<< 24 |||
    ((n.toBitVec >>> 16 &&& 255#32).setWidth 8).setWidth 32 <<< 16 |||
    ((n.toBitVec >>> 8 &&& 255#32).setWidth 8).setWidth 32 <<< 8 |||
    ((n.toBitVec &&& 255#32).setWidth 8).setWidth 32) = n.toBitVec
  have hlow : (n.toBitVec.setWidth 8).setWidth 32 =
      ((n.toBitVec >>> 0).setWidth 8).setWidth 32 <<< 0 := by
    rw [BitVec.ushiftRight_zero, BitVec.shiftLeft_zero]
  rw [setWidth_mask, setWidth_mask, setWidth_mask, setWidth_mask, hlow]
  apply BitVec.eq_of_getLsbD_eq
  intro i hi
  rw [BitVec.getLsbD_or, BitVec.getLsbD_or, BitVec.getLsbD_or, getLsbD_byte _ _ hi,
    getLsbD_byte _ _ hi, getLsbD_byte _ _ hi, getLsbD_byte _ _ hi]
  cases n.toBitVec.getLsbD i with
  | false => simp
  | true =>
    simp only [Bool.and_true, Bool.or_eq_true, decide_eq_true_eq]
    omega

theorem ensure_bind (h : condition = true) (f : Unit → Except Abort α) :
    (ensure condition >>= f) = f () := by
  rw [ensure, if_pos h]
  rfl

/-- Points of the generator are parsed again, and adding to a point adds to its scalar. -/
structure Crypto.Lawful (C : Crypto) : Prop where
  parse : ∀ k, 0 < k → k < order →
    C.pubkeyParse (pubkeySerialize (C.ecmultGen k) SECP256K1_EC_COMPRESSED) = some (C.ecmultGen k)
  add : ∀ k t, 0 < k → k < order → t < order → C.ecmultAdd (C.ecmultGen k) t =
    if (k + t) % order = 0 then none else some (C.ecmultGen ((k + t) % order))

def CKey.Valid (key : CKey) : Prop := key.fValid = true ∧ seckeyVerify key.vch.1 = true

section

def Shows (pubkey : CPubKey) (point : Point) : Prop :=
  pubkey.vch.take 33 = pubkeySerialize point SECP256K1_EC_COMPRESSED

variable {pubkey : CPubKey} {point : Point}

theorem shows_overwrite (pubkey : CPubKey) (point : Point) :
    Shows (pubkey.overwrite (pubkeySerialize point SECP256K1_EC_COMPRESSED)) point := by
  have hlen := PrivKey.length_compressed point
  rw [Shows, PubKeyStream.overwrite_take pubkey (by omega) (by omega), ← hlen, take_length]

theorem headD_take (pubkey : CPubKey) : (pubkey.vch.take 33).headD 0 = pubkey.header := by
  obtain ⟨vch, hlen⟩ := pubkey
  cases vch with
  | nil => rfl
  | cons b vch => rfl

theorem Shows.header (h : Shows pubkey point) :
    pubkey.header = (pubkeySerialize point SECP256K1_EC_COMPRESSED).headD 0 := by
  rw [← h, headD_take]

theorem Shows.size (h : Shows pubkey point) : pubkey.size = 33 := by
  rw [CPubKey.size, h.header]
  exact PrivKey.getLen_compressed _

theorem Shows.bytes (h : Shows pubkey point) :
    pubkey.bytes = pubkeySerialize point SECP256K1_EC_COMPRESSED := by
  rw [CPubKey.bytes, h.size]
  exact h

theorem Shows.tail32 (h : Shows pubkey point) :
    tail32 pubkey = (pubkeySerialize point SECP256K1_EC_COMPRESSED).drop 1 := by
  rw [← h, ExtKey.tail32, drop_take]

theorem Shows.same (h : Shows pubkey point) (h' : Shows pubkey' point) : pubkey.Same pubkey' := by
  refine ⟨h.header.trans h'.header.symm, ?_⟩
  rw [h.size]
  exact h.trans h'.symm

theorem shows_setPubKey (pubkey : CPubKey) (point : Point) :
    Shows (setPubKey pubkey (pubkeySerialize point SECP256K1_EC_COMPRESSED)) point := by
  have hlen := PrivKey.length_compressed point
  have hne : pubkeySerialize point SECP256K1_EC_COMPRESSED ≠ [] := fun h => by
    rw [h] at hlen
    cases hlen
  have hget : getLen ((pubkeySerialize point SECP256K1_EC_COMPRESSED).headD 0) = 33 :=
    PrivKey.getLen_compressed _
  rw [setPubKey, if_neg hne, hget, hlen]
  exact shows_overwrite pubkey point

theorem order_pos : 0 < order := by decide

theorem order_lt : order < 256 ^ 32 := by decide

theorem seckeyVerify_iff : seckeyVerify vch = true ↔ 0 < beValue vch ∧ beValue vch < order := by
  rw [seckeyVerify, Bool.and_eq_true, decide_eq_true_eq, bne_iff_ne]
  omega

theorem getPubKey_valid (C : Crypto) {key : CKey} (h : key.Valid) (hc : key.fCompressed = true) :
    ∃ pubkey, key.getPubKey C = .ok pubkey ∧ Shows pubkey (C.ecmultGen (beValue key.vch.1)) := by
  have hshows := shows_overwrite unsetPubKey (C.ecmultGen (beValue key.vch.1))
  refine ⟨_, ?_, hshows⟩
  have hlen := PrivKey.length_compressed (C.ecmultGen (beValue key.vch.1))
  rw [CKey.getPubKey, ensure_bind h.1, pubkeyCreate, if_pos h.2, hc]
  dsimp only
  rw [if_pos rfl, hshows.size, hlen]
  rfl

theorem privkeyTweakAdd_spec (h : seckeyVerify seckey.1 = true) (tweak : Block 32) :
    (beValue tweak.1 < order ∧ (beValue seckey.1 + beValue tweak.1) % order ≠ 0 ∧
      ∃ child : Block 32, privkeyTweakAdd seckey tweak = (true, child) ∧
        seckeyVerify child.1 = true ∧
        beValue child.1 = (beValue seckey.1 + beValue tweak.1) % order) ∨
    (¬ (beValue tweak.1 < order ∧ (beValue seckey.1 + beValue tweak.1) % order ≠ 0) ∧
      privkeyTweakAdd seckey tweak = (false, scalar32 0)) := by
  have hmod : beValue seckey.1 % order = beValue seckey.1 :=
    Nat.mod_eq_of_lt (seckeyVerify_iff.mp h).2
  simp only [privkeyTweakAdd, hmod]
  generalize hsec : (beValue seckey.1 + beValue tweak.1) % order = sec
  have hlt : sec < order := by
    rw [← hsec]
    exact Nat.mod_lt _ order_pos
  by_cases hok : beValue tweak.1 < order ∧ sec ≠ 0
  · have hvalue : beValue (scalar32 sec).1 = sec := by
      rw [scalar32, beBlock, beValue_beBytes, Nat.mod_eq_of_lt (hlt.trans order_lt)]
    rw [if_pos hok]
    refine .inl ⟨hok.1, hok.2, _, rfl, ?_, hvalue⟩
    rw [seckeyVerify_iff, hvalue]
    exact ⟨pos_of_ne_zero hok.2, hlt⟩
  · rw [if_neg hok]
    exact .inr ⟨hok, rfl⟩

end

section

variable {C : Crypto}

structure Mirrors (C : Crypto) (k : CExtKey) (p : CExtPubKey) : Prop where
  valid : k.key.Valid
  compressed : k.key.fCompressed = true
  nDepth : p.nDepth = k.nDepth
  vchFingerprint : p.vchFingerprint = k.vchFingerprint
  nChild : p.nChild = k.nChild
  chaincode : p.chaincode = k.chaincode
  pubkey : Shows p.pubkey (C.ecmultGen (beValue k.key.vch.1))

theorem neuter_mirrors {k : CExtKey} (h : k.key.Valid) (hc : k.key.fCompressed = true) :
    ∃ p, k.neuter C = .ok p ∧ Mirrors C k p := by
  obtain ⟨pubkey, hpubkey, hshows⟩ := getPubKey_valid C h hc
  refine ⟨⟨k.nDepth, k.vchFingerprint, k.nChild, k.chaincode, pubkey⟩, ?_,
    h, hc, rfl, rfl, rfl, rfl, hshows⟩
  rw [CExtKey.neuter, hpubkey]
  rfl

theorem Mirrors.same (h : Mirrors C k p) (h' : Mirrors C k p') : p.Same p' :=
  ⟨h.nDepth.trans h'.nDepth.symm, h.vchFingerprint.trans h'.vchFingerprint.symm,
    h.nChild.trans h'.nChild.symm, h.chaincode.trans h'.chaincode.symm, h.pubkey.same h'.pubkey⟩

def pathHash (C : Crypto) (k : CExtKey) (nChild : UInt32) : Block 64 :=
  bip32Hash C k.chaincode nChild
    ((pubkeySerialize (C.ecmultGen (beValue k.key.vch.1)) SECP256K1_EC_COMPRESSED).headD 0)
    ((pubkeySerialize (C.ecmultGen (beValue k.key.vch.1)) SECP256K1_EC_COMPRESSED).drop 1)

def childTweak (C : Crypto) (k : CExtKey) (nChild : UInt32) : Block 32 :=
  (pathHash C k nChild).slice 0 32 (by decide)

def childChaincode (C : Crypto) (k : CExtKey) (nChild : UInt32) : Block 32 :=
  (pathHash C k nChild).slice 32 32 (by decide)

def childFingerprint (C : Crypto) (k : CExtKey) : Block 4 :=
  (C.hash160 (pubkeySerialize (C.ecmultGen (beValue k.key.vch.1))
    SECP256K1_EC_COMPRESSED)).slice 0 4 (by decide)

theorem derive_eq {k : CExtKey} (h : k.key.Valid) (hc : k.key.fCompressed = true) {nChild : UInt32}
    (hn : nChild >>> 31 = 0) :
    k.derive C nChild =
      let (ret, child) := privkeyTweakAdd k.key.vch (childTweak C k nChild)
      .ok (ret, ⟨k.nDepth + 1, childFingerprint C k, nChild, childChaincode C k nChild,
        ⟨ret, true, child⟩⟩) := by
  obtain ⟨pubkey, hpubkey, hshows⟩ := getPubKey_valid C h hc
  have hhash : k.key.childHash C nChild k.chaincode = .ok (pathHash C k nChild) := by
    rw [CKey.childHash, if_pos hn, hpubkey]
    dsimp only [bind, Except.bind]
    rw [hshows.size, hshows.header, hshows.tail32]
    rfl
  have hderive : k.key.derive C nChild k.chaincode =
      let (ret, child) := privkeyTweakAdd k.key.vch (childTweak C k nChild)
      .ok (ret, ⟨ret, true, child⟩, childChaincode C k nChild) := by
    rw [CKey.derive, ensure_bind h.1, ensure_bind hc, hhash]
    rfl
  rw [CExtKey.derive, hpubkey]
  dsimp only [bind, Except.bind]
  rw [hderive, getID, hshows.bytes]
  rfl

theorem derivePub_eq (hC : C.Lawful) {k : CExtKey} {p : CExtPubKey} (h : Mirrors C k p)
    {nChild : UInt32} (hn : nChild >>> 31 = 0) (out : CPubKey) :
    p.derive C out nChild =
      match pubkeyTweakAdd C (C.ecmultGen (beValue k.key.vch.1)) (childTweak C k nChild) with
      | none => .ok (false, ⟨k.nDepth + 1, childFingerprint C k, nChild,
          childChaincode C k nChild, out⟩)
      | some child => .ok (true, ⟨k.nDepth + 1, childFingerprint C k, nChild,
          childChaincode C k nChild, setPubKey out (pubkeySerialize child SECP256K1_EC_COMPRESSED)⟩) := by
  obtain ⟨hpos, hlt⟩ := seckeyVerify_iff.mp h.valid.2
  have hparse : C.pubkeyParse p.pubkey.bytes = some (C.ecmultGen (beValue k.key.vch.1)) := by
    rw [h.pubkey.bytes]
    exact hC.parse _ hpos hlt
  have hhash : bip32Hash C p.chaincode nChild p.pubkey.header (tail32 p.pubkey) =
      pathHash C k nChild := by
    rw [h.chaincode, h.pubkey.header, h.pubkey.tail32]
    rfl
  rw [CExtPubKey.derive, derivePubKey, h.pubkey.size, hn, hhash, hparse, getID, h.pubkey.bytes,
    h.nDepth]
  dsimp only
  rw [← childTweak]
  cases pubkeyTweakAdd C (C.ecmultGen (beValue k.key.vch.1)) (childTweak C k nChild) with
  | none => rfl
  | some child => rfl

theorem derive_step (hC : C.Lawful) {k : CExtKey} {p : CExtPubKey} (h : Mirrors C k p)
    {nChild : UInt32} (hn : nChild >>> 31 = 0) :
    ∃ ret child childp, k.derive C nChild = .ok (ret, child) ∧
      p.derive C unsetPubKey nChild = .ok (ret, childp) ∧ (ret = true → Mirrors C child childp) := by
  obtain ⟨hpos, hlt⟩ := seckeyVerify_iff.mp h.valid.2
  rw [derive_eq h.valid h.compressed hn, derivePub_eq hC h hn]
  rcases privkeyTweakAdd_spec h.valid.2 (childTweak C k nChild) with
    ⟨htweak, hne, child, hchild, hverify, hvalue⟩ | ⟨hfail, hret⟩
  · have hpoint : pubkeyTweakAdd C (C.ecmultGen (beValue k.key.vch.1)) (childTweak C k nChild) =
        some (C.ecmultGen (beValue child.1)) := by
      rw [pubkeyTweakAdd, if_pos htweak, hC.add _ _ hpos hlt htweak, if_neg hne, hvalue]
    rw [hchild, hpoint]
    refine ⟨true, _, _, rfl, rfl, fun _ => ?_⟩
    exact ⟨⟨rfl, hverify⟩, rfl, rfl, rfl, rfl, rfl, shows_setPubKey _ _⟩
  · have hpoint : pubkeyTweakAdd C (C.ecmultGen (beValue k.key.vch.1)) (childTweak C k nChild) =
        none := by
      rw [pubkeyTweakAdd]
      split_ifs with htweak
      · rw [hC.add _ _ hpos hlt htweak, if_pos (not_not.mp fun hne => hfail ⟨htweak, hne⟩)]
      · rfl
    rw [hpoint, hret]
    exact ⟨false, _, _, rfl, rfl, fun h => absurd h Bool.false_ne_true⟩

theorem derivePath_mirrors (hC : C.Lawful) {path : List UInt32}
    (hpath : ∀ nChild ∈ path, nChild >>> 31 = 0) {k : CExtKey} {p : CExtPubKey}
    (h : Mirrors C k p) :
    ∃ r r', k.derivePath C path = .ok r ∧ p.derivePath C path = .ok r' ∧
      r.isSome = r'.isSome ∧ ∀ child ∈ r, ∀ childp ∈ r', Mirrors C child childp := by
  induction path generalizing k p with
  | nil =>
    refine ⟨some k, some p, rfl, rfl, rfl, ?_⟩
    rintro _ ⟨⟩ _ ⟨⟩
    exact h
  | cons nChild path ih =>
    obtain ⟨hn, hpath⟩ := forall_mem_cons.mp hpath
    obtain ⟨ret, child, childp, hk, hp, hnext⟩ := derive_step hC h hn
    rw [CExtKey.derivePath, CExtPubKey.derivePath, hk, hp]
    cases ret with
    | false => exact ⟨none, none, rfl, rfl, rfl, fun _ h => by cases h⟩
    | true => exact ih hpath (hnext rfl)

end

section

def commonBytes (nDepth : UInt8) (vchFingerprint : Block 4) (nChild : UInt32)
    (chaincode : Block 32) : Bytes :=
  [nDepth] ++ vchFingerprint.1 ++ bigEndian nChild ++ chaincode.1

variable {nDepth : UInt8} {vchFingerprint : Block 4} {nChild : UInt32} {chaincode : Block 32}

theorem length_commonBytes :
    (commonBytes nDepth vchFingerprint nChild chaincode).length = 41 := by
  simp only [commonBytes, bigEndian, length_append, vchFingerprint.2, chaincode.2,
    length_cons, length_nil]

theorem slice_eq {n start size : Nat} {code : Block n} {h : start + size ≤ n} (before after : Bytes)
    {block : Block size} (hcode : code.1 = before ++ (block.1 ++ after))
    (hbefore : before.length = start) : code.slice start size h = block := by
  apply Subtype.ext
  change (code.1.drop start).take size = block.1
  rw [hcode, drop_left' hbefore, take_left' block.2]

theorem decode_common (code : Block 74)
    (hcode : code.1 = commonBytes nDepth vchFingerprint nChild chaincode ++ rest) :
    code.1.getD 0 0 = nDepth ∧ code.slice 1 4 (by decide) = vchFingerprint ∧
      codeChild code = nChild ∧ code.slice 9 32 (by decide) = chaincode := by
  refine ⟨?_, ?_, ?_, ?_⟩
  · rw [hcode]
    rfl
  · refine slice_eq [nDepth] (bigEndian nChild ++ chaincode.1 ++ rest) ?_ rfl
    rw [hcode]
    simp only [commonBytes, append_assoc]
  · obtain ⟨fingerprint, hlen⟩ := vchFingerprint
    match fingerprint, hlen with
    | [_, _, _, _], _ =>
      rw [codeChild, hcode]
      exact ofBigEndian_bigEndian nChild
  · refine slice_eq ([nDepth] ++ vchFingerprint.1 ++ bigEndian nChild) rest ?_ ?_
    · rw [hcode]
      simp only [commonBytes, append_assoc]
    · simp only [bigEndian, length_append, vchFingerprint.2, length_cons, length_nil]

theorem decode_encode (old : CExtKey) (h : k.key.Valid) (hc : k.key.fCompressed = true) :
    ∃ code, ∃ hlen : code.length = 74, k.encode = .ok code ∧ (old.decode ⟨code, hlen⟩).Same k := by
  have hsize : k.key.size = 32 := if_pos h.1
  have hlen : (commonBytes k.nDepth k.vchFingerprint k.nChild k.chaincode ++
      ([0] ++ k.key.vch.1)).length = 74 := by
    simp only [length_append, length_commonBytes, k.key.vch.2, length_cons, length_nil]
  obtain ⟨hdepth, hfingerprint, hchild, hchain⟩ := decode_common ⟨_, hlen⟩ rfl
  have hsecret : Block.slice ⟨_, hlen⟩ 42 32 (by decide) = k.key.vch := by
    refine slice_eq (commonBytes k.nDepth k.vchFingerprint k.nChild k.chaincode ++ [0]) [] ?_ ?_
    · rw [append_nil, append_assoc]
    · rw [length_append, length_commonBytes]
      rfl
  refine ⟨_, hlen, ?_, hdepth, hfingerprint, hchild, hchain, ?_⟩
  · rw [CExtKey.encode, hsize, ensure_bind (beq_self_eq_true 32), append_assoc]
    rfl
  · rw [CExtKey.decode]
    rw [hsecret, CKey.set, if_pos h.2]
    exact ⟨hc.symm, hsize.symm, rfl⟩

theorem decode_encodePub (old : CExtPubKey) (h : k.pubkey.size = 33) :
    ∃ code, ∃ hlen : code.length = 74, k.encode = .ok code ∧ (old.decode ⟨code, hlen⟩).Same k := by
  have htake : (k.pubkey.vch.take 33).length = 33 := by
    rw [length_take, k.pubkey.sizeof]
    rfl
  have hlen : (commonBytes k.nDepth k.vchFingerprint k.nChild k.chaincode ++
      k.pubkey.vch.take 33).length = 74 := by
    rw [length_append, length_commonBytes, htake]
  obtain ⟨hdepth, hfingerprint, hchild, hchain⟩ := decode_common ⟨_, hlen⟩ rfl
  have hkey : Block.slice ⟨_, hlen⟩ 41 33 (by decide) = ⟨k.pubkey.vch.take 33, htake⟩ := by
    refine slice_eq (commonBytes k.nDepth k.vchFingerprint k.nChild k.chaincode) [] ?_
      length_commonBytes
    rw [append_nil]
  have hset : setPubKey old.pubkey (k.pubkey.vch.take 33) =
      old.pubkey.overwrite (k.pubkey.vch.take 33) := by
    have hne : k.pubkey.vch.take 33 ≠ [] := ne_nil_of_length_pos (by omega)
    have hget : getLen k.pubkey.header = 33 := h
    rw [setPubKey, if_neg hne, headD_take, hget, htake, if_pos ⟨by decide, rfl⟩]
  refine ⟨_, hlen, ?_, hdepth, hfingerprint, hchild, hchain, ?_⟩
  · rw [CExtPubKey.encode, h, ensure_bind (beq_self_eq_true 33)]
    rfl
  · rw [CExtPubKey.decode]
    rw [hkey, hset]
    have hover := PubKeyStream.overwrite_take old.pubkey (by omega) htake.ge
    rw [take_take, Nat.min_self] at hover
    have hheader : (old.pubkey.overwrite (k.pubkey.vch.take 33)).header = k.pubkey.header := by
      rw [← headD_take, hover, headD_take]
    refine ⟨hheader, ?_⟩
    rw [CPubKey.size, hheader, ← CPubKey.size, h]
    exact hover

end

/-- Deriving along a path that is not hardened commutes with neutering, and it fails for the one
exactly when it fails for the other. Both kinds of extended keys are read back from their encoding.
-/
theorem extended_keys_commute (C : Crypto) (hC : C.Lawful) :
    (∀ (k : CExtKey) (path : List UInt32), k.key.Valid → k.key.fCompressed = true →
      (∀ nChild ∈ path, nChild >>> 31 = 0) →
      ∃ r p r', k.derivePath C path = .ok r ∧ k.neuter C = .ok p ∧ p.derivePath C path = .ok r' ∧
        r.isSome = r'.isSome ∧
        ∀ child ∈ r, ∀ childp ∈ r', ∃ n, child.neuter C = .ok n ∧ n.Same childp) ∧
    (∀ k old : CExtKey, k.key.Valid → k.key.fCompressed = true →
      ∃ code, ∃ hlen : code.length = 74, k.encode = .ok code ∧ (old.decode ⟨code, hlen⟩).Same k) ∧
    (∀ k old : CExtPubKey, k.pubkey.size = 33 →
      ∃ code, ∃ hlen : code.length = 74, k.encode = .ok code ∧ (old.decode ⟨code, hlen⟩).Same k) := by
  refine ⟨fun k path h hc hpath => ?_, fun k old h hc => decode_encode old h hc,
    fun k old h => decode_encodePub old h⟩
  obtain ⟨p, hneuter, hmirrors⟩ := neuter_mirrors (C := C) h hc
  obtain ⟨r, r', hr, hr', hsome, hsame⟩ := derivePath_mirrors hC hpath hmirrors
  refine ⟨r, p, r', hr, hneuter, hr', hsome, fun child hchild childp hchildp => ?_⟩
  have hchildren := hsame child hchild childp hchildp
  obtain ⟨n, hn, hmirrors'⟩ := neuter_mirrors (C := C) hchildren.valid hchildren.compressed
  exact ⟨n, hn, hmirrors'.same hchildren⟩

def childSecret : Nat := 0x98d82efc2eebd61cfd0d1892885a5e46b67a2d440e0dc8ce7cc534f8798f207

def childPoint : Point :=
  .ofNats 0xe6b7487c9ce0f125b0165eec8fb4669d8184dc4d54fa1f85fd11f475ed6493d2
    0x54b59ab8f97bbbc1d5bd9e0561d2d2bcf050ba81f339be63ffcd7a0688feae16

/-- The table has the values of the curve for these two scalars, and tells the others apart by an
odd `y`. -/
def tableGen (k : Nat) : Point :=
  if k = 1 then PrivKey.generator
  else if k = childSecret then childPoint
  else .ofNats k 1

def tableLog (point : Point) : Nat :=
  if point.y = beBytes 32 1 then beValue point.x
  else if point.x = PrivKey.generator.x then 1 else childSecret

def tableCrypto : Crypto where
  ecmultGen := tableGen
  ecmultAdd point t :=
    if (tableLog point + t) % order = 0 then none
    else some (tableGen ((tableLog point + t) % order))
  pubkeyParse bytes :=
    if bytes.headD 0 = 3 then some (tableGen (beValue (bytes.drop 1)))
    else if bytes.drop 1 = PrivKey.generator.x then some (tableGen 1) else some (tableGen childSecret)
  hmacSha512 chainCode data :=
    if chainCode = replicate 32 0 ∧
        data = pubkeySerialize PrivKey.generator SECP256K1_EC_COMPRESSED ++ [0, 0, 0, 1] then
      ⟨beBytes 64 0x098d82efc2eebd61cfd0d1892885a5e46b67a2d440e0dc8ce7cc534f8798f2066d33caf6416b42d2f65184bfd155b40c04189e9457d293160266541cfbedeaff,
        beBytes_length _ _⟩
    else ⟨beBytes 64 0, beBytes_length _ _⟩
  hash160 data :=
    if data = pubkeySerialize PrivKey.generator SECP256K1_EC_COMPRESSED then
      ⟨beBytes 20 0x751e76e8199196d454941c45d1b3a323f1433bd6, beBytes_length _ _⟩
    else ⟨beBytes 20 0, beBytes_length _ _⟩

theorem value_table (hlt : k < order) : beValue (beBytes 32 k) = k := by
  rw [beValue_beBytes, Nat.mod_eq_of_lt (hlt.trans order_lt)]

theorem tableLog_tableGen (hlt : k < order) : tableLog (tableGen k) = k := by
  rw [tableGen]
  split_ifs with h1 hc
  · rw [h1]
    decide +kernel
  · rw [hc]
    decide +kernel
  · rw [tableLog, Point.ofNats, if_pos rfl]
    exact value_table hlt

theorem tableCrypto_lawful : tableCrypto.Lawful where
  parse k _ hlt := by
    change (if (pubkeySerialize (tableGen k) SECP256K1_EC_COMPRESSED).headD 0 = 3 then
        some (tableGen (beValue (tableGen k).x))
      else if (tableGen k).x = PrivKey.generator.x then some (tableGen 1)
      else some (tableGen childSecret)) = some (tableGen k)
    by_cases h1 : k = 1
    · rw [h1, if_neg (by decide +kernel), if_pos (by decide +kernel)]
    · by_cases hc : k = childSecret
      · rw [hc, if_neg (by decide +kernel), if_neg (by decide +kernel)]
      · have hgen : tableGen k = .ofNats k 1 := by
          rw [tableGen, if_neg h1, if_neg hc]
        have hhead : (pubkeySerialize (tableGen k) SECP256K1_EC_COMPRESSED).headD 0 = 3 := by
          rw [hgen]
          change (0x02 ||| ((beBytes 32 1).getLastD 0 &&& 1) : UInt8) = 3
          decide +kernel
        have hx : (tableGen k).x = beBytes 32 k := by rw [hgen, Point.ofNats]
        rw [if_pos hhead, hx, value_table hlt]
  add k t _ hlt _ := by
    change (if (tableLog (tableGen k) + t) % order = 0 then none
      else some (tableGen ((tableLog (tableGen k) + t) % order))) = _
    rw [tableLog_tableGen hlt]
    rfl

def rootKey (fCompressed : Bool) : CExtKey where
  nDepth := 0
  vchFingerprint := zeroBytes 4
  nChild := 0
  chaincode := zeroBytes 32
  key := ⟨true, fCompressed, scalar32 1⟩

theorem extended_keys_commute_childOne :
    tableCrypto.Lawful ∧ (rootKey true).key.Valid ∧
      ∃ child p childp n, (rootKey true).derivePath tableCrypto [1] = .ok (some child) ∧
        (rootKey true).neuter tableCrypto = .ok p ∧
        p.derivePath tableCrypto [1] = .ok (some childp) ∧
        child.neuter tableCrypto = .ok n ∧ n.Same childp := by
  have hvalid : (rootKey true).key.Valid := ⟨rfl, by decide +kernel⟩
  have hsucceeds : (match (rootKey true).derivePath tableCrypto [1] with
      | .ok r => r.isSome
      | .error _ => false) = true := by decide +kernel
  obtain ⟨hcommute, -, -⟩ := extended_keys_commute tableCrypto tableCrypto_lawful
  obtain ⟨r, p, r', hr, hp, hr', hsome, hsame⟩ := hcommute (rootKey true) [1] hvalid rfl
    (forall_mem_singleton.mpr rfl)
  rw [hr] at hsucceeds
  obtain ⟨child, rfl⟩ := Option.isSome_iff_exists.mp hsucceeds
  obtain ⟨childp, rfl⟩ := Option.isSome_iff_exists.mp (hsome.symm.trans hsucceeds)
  obtain ⟨n, hn, hnsame⟩ := hsame child rfl childp rfl
  exact ⟨tableCrypto_lawful, hvalid, child, p, childp, n, hr, hp, hr', hn, hnsame⟩

/-- A key that is not compressed is read back as one that is, because its encoding has no room for
the flag. -/
theorem uncompressed_read_as_compressed :
    (rootKey false).key.Valid ∧ ∃ code, ∃ hlen : code.length = 74,
      (rootKey false).encode = .ok code ∧
      ((rootKey false).decode ⟨code, hlen⟩).key.fCompressed = true ∧
      ¬ ((rootKey false).decode ⟨code, hlen⟩).Same (rootKey false) := by
  refine ⟨⟨rfl, by decide +kernel⟩, _, ?_, rfl, ?_, ?_⟩
  · decide +kernel
  · decide +kernel
  · intro h
    have hflag := h.2.2.2.2.1
    revert hflag
    decide +kernel

end Utsuite.ExtKey
