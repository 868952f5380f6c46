import Utsuite.Der
import Utsuite.UosAddress

namespace Utsuite.PrivKey

open ByteWords Der List
open UosAddress (getLen)

def order : Nat := 0xFFFFFFFFFFFFFFFFFFFFFFFFFFFFFFFEBAAEDCE6AF48A03BBFD25E8CD0364141

def SECP256K1_FLAGS_BIT_COMPRESSION : Nat := 1 <<< 8

def SECP256K1_EC_COMPRESSED : Nat := 1 <<< 1 ||| SECP256K1_FLAGS_BIT_COMPRESSION

def SECP256K1_EC_UNCOMPRESSED : Nat := 1 <<< 1

def seckeyVerify (seckey : Bytes) : Bool := beValue seckey < order && beValue seckey != 0

abbrev Secret := {vch : Bytes // vch.length = 32 ∧ seckeyVerify vch = true}

structure Point where
  x : Bytes
  y : Bytes
  x_length : x.length = 32
  y_length : y.length = 32

def Point.ofNats (x y : Nat) : Point where
  x := beBytes 32 x
  y := beBytes 32 y
  x_length := beBytes_length 32 x
  y_length := beBytes_length 32 y

def pubkeySerialize (pubkey : Point) (flags : Nat) : Bytes :=
  if flags &&& SECP256K1_FLAGS_BIT_COMPRESSION ≠ 0 then
    (0x02 ||| (pubkey.y.getLastD 0 &&& 1)) :: pubkey.x
  else 0x04 :: (pubkey.x ++ pubkey.y)

/-- The curve, of which only this is assumed: a signature verifies against either form of the point
of its secret. -/
structure Curve where
  ecmultGen : Nat → Point
  sign : Bytes → Bytes → Bytes
  verify : Bytes → Bytes → Bytes → Bool
  verify_sign : ∀ (seckey : Secret) (flags : Nat) (hash : Bytes),
    verify (pubkeySerialize (ecmultGen (beValue seckey.1)) flags) hash (sign seckey.1 hash) = true

structure CKey where
  fCompressed : Bool
  vch : Secret
  deriving DecidableEq

def CKey.flags (key : CKey) : Nat :=
  if key.fCompressed then SECP256K1_EC_COMPRESSED else SECP256K1_EC_UNCOMPRESSED

def compressedBegin : Bytes :=
  [0x30, 0x81, 0xD3, 0x02, 0x01, 0x01, 0x04, 0x20]

def compressedMiddle : Bytes :=
  [0xA0, 0x81, 0x85, 0x30, 0x81, 0x82, 0x02, 0x01, 0x01, 0x30, 0x2C, 0x06, 0x07, 0x2A, 0x86, 0x48,
   0xCE, 0x3D, 0x01, 0x01, 0x02, 0x21, 0x00, 0xFF, 0xFF, 0xFF, 0xFF, 0xFF, 0xFF, 0xFF, 0xFF, 0xFF,
   0xFF, 0xFF, 0xFF, 0xFF, 0xFF, 0xFF, 0xFF, 0xFF, 0xFF, 0xFF, 0xFF, 0xFF, 0xFF, 0xFF, 0xFF, 0xFF,
   0xFF, 0xFF, 0xFE, 0xFF, 0xFF, 0xFC, 0x2F, 0x30, 0x06, 0x04, 0x01, 0x00, 0x04, 0x01, 0x07, 0x04,
   0x21, 0x02, 0x79, 0xBE, 0x66, 0x7E, 0xF9, 0xDC, 0xBB, 0xAC, 0x55, 0xA0, 0x62, 0x95, 0xCE, 0x87,
   0x0B, 0x07, 0x02, 0x9B, 0xFC, 0xDB, 0x2D, 0xCE, 0x28, 0xD9, 0x59, 0xF2, 0x81, 0x5B, 0x16, 0xF8,
   0x17, 0x98, 0x02, 0x21, 0x00, 0xFF, 0xFF, 0xFF, 0xFF, 0xFF, 0xFF, 0xFF, 0xFF, 0xFF, 0xFF, 0xFF,
   0xFF, 0xFF, 0xFF, 0xFF, 0xFE, 0xBA, 0xAE, 0xDC, 0xE6, 0xAF, 0x48, 0xA0, 0x3B, 0xBF, 0xD2, 0x5E,
   0x8C, 0xD0, 0x36, 0x41, 0x41, 0x02, 0x01, 0x01, 0xA1, 0x24, 0x03, 0x22, 0x00]

def uncompressedBegin : Bytes :=
  [0x30, 0x82, 0x01, 0x13, 0x02, 0x01, 0x01, 0x04, 0x20]

def uncompressedMiddle : Bytes :=
  [0xA0, 0x81, 0xA5, 0x30, 0x81, 0xA2, 0x02, 0x01, 0x01, 0x30, 0x2C, 0x06, 0x07, 0x2A, 0x86, 0x48,
   0xCE, 0x3D, 0x01, 0x01, 0x02, 0x21, 0x00, 0xFF, 0xFF, 0xFF, 0xFF, 0xFF, 0xFF, 0xFF, 0xFF, 0xFF,
   0xFF, 0xFF, 0xFF, 0xFF, 0xFF, 0xFF, 0xFF, 0xFF, 0xFF, 0xFF, 0xFF, 0xFF, 0xFF, 0xFF, 0xFF, 0xFF,
   0xFF, 0xFF, 0xFE, 0xFF, 0xFF, 0xFC, 0x2F, 0x30, 0x06, 0x04, 0x01, 0x00, 0x04, 0x01, 0x07, 0x04,
   0x41, 0x04, 0x79, 0xBE, 0x66, 0x7E, 0xF9, 0xDC, 0xBB, 0xAC, 0x55, 0xA0, 0x62, 0x95, 0xCE, 0x87,
   0x0B, 0x07, 0x02, 0x9B, 0xFC, 0xDB, 0x2D, 0xCE, 0x28, 0xD9, 0x59, 0xF2, 0x81, 0x5B, 0x16, 0xF8,
   0x17, 0x98, 0x48, 0x3A, 0xDA, 0x77, 0x26, 0xA3, 0xC4, 0x65, 0x5D, 0xA4, 0xFB, 0xFC, 0x0E, 0x11,
   0x08, 0xA8, 0xFD, 0x17, 0xB4, 0x48, 0xA6, 0x85, 0x54, 0x19, 0x9C, 0x47, 0xD0, 0x8F, 0xFB, 0x10,
   0xD4, 0xB8, 0x02, 0x21, 0x00, 0xFF, 0xFF, 0xFF, 0xFF, 0xFF, 0xFF, 0xFF, 0xFF, 0xFF, 0xFF, 0xFF,
   0xFF, 0xFF, 0xFF, 0xFF, 0xFE, 0xBA, 0xAE, 0xDC, 0xE6, 0xAF, 0x48, 0xA0, 0x3B, 0xBF, 0xD2, 0x5E,
   0x8C, 0xD0, 0x36, 0x41, 0x41, 0x02, 0x01, 0x01, 0xA1, 0x44, 0x03, 0x42, 0x00]

section

def importDer (privkey : Bytes) : Option Secret :=
  -- sequence header
  if privkey.length < 1 ∨ privkey.getD 0 0 ≠ 0x30 then none
  else
    let privkey := privkey.drop 1
    -- sequence length constructor
    if privkey.length < 1 ∨ privkey.getD 0 0 &&& 0x80 = 0 then none
    else
      let lenb := (privkey.getD 0 0 &&& 0x7f).toNat
      let privkey := privkey.drop 1
      if lenb < 1 ∨ lenb > 2 then none
      else if privkey.length < lenb then none
      else
        -- sequence length
        let len := (privkey.getD (lenb - 1) 0).toNat |||
          if lenb > 1 then (privkey.getD (lenb - 2) 0).toNat <<< 8 else 0
        let privkey := privkey.drop lenb
        if privkey.length < len then none
        -- sequence element 0: version number (=1)
        else if privkey.length < 3 ∨ privkey.getD 0 0 ≠ 0x02 ∨ privkey.getD 1 0 ≠ 0x01 ∨
            privkey.getD 2 0 ≠ 0x01 then none
        else
          let privkey := privkey.drop 3
          -- sequence element 1: octet string, up to 32 bytes
          let size := (privkey.getD 1 0).toNat
          if h : privkey.length < 2 ∨ privkey.getD 0 0 ≠ 0x04 ∨ size > 0x20 ∨
              privkey.length < 2 + size then none
          else
            let out32 := replicate (32 - size) 0 ++ (privkey.drop 2).take size
            if hverify : seckeyVerify out32 then
              some ⟨out32, by
                simp only [not_or, not_lt] at h
                simp only [out32, length_append, length_replicate, length_take,
                  length_drop]
                omega, hverify⟩
            else none

variable (C : Curve)

def pubkeyCreate (seckey : Bytes) : Option Point :=
  if seckeyVerify seckey then some (C.ecmultGen (beValue seckey)) else none

def exportDer (key32 : Bytes) (compressed : Nat) : Option Bytes :=
  match pubkeyCreate C key32 with
  | none => none
  | some pubkey =>
    if compressed ≠ 0 then
      some (compressedBegin ++ key32 ++ compressedMiddle ++
        pubkeySerialize pubkey SECP256K1_EC_COMPRESSED)
    else
      some (uncompressedBegin ++ key32 ++ uncompressedMiddle ++
        pubkeySerialize pubkey SECP256K1_EC_UNCOMPRESSED)

def CKey.getPrivKey (key : CKey) : Option Bytes := exportDer C key.vch.1 key.flags

def CKey.getPubKey (key : CKey) : Option Bytes :=
  match pubkeyCreate C key.vch.1 with
  | none => none
  | some pubkey =>
    let result := pubkeySerialize pubkey key.flags
    if getLen (result.headD 0xFF) = result.length then some result else none

def isCompressed (pubkey : Bytes) : Bool := pubkey.length == 33

def setPrivKey (privkey : Bytes) (fCompressedIn : Bool) : Option CKey :=
  (importDer privkey).map fun vch => ⟨fCompressedIn, vch⟩

def CKey.verifyPubKey (key : CKey) (pubkey hash : Bytes) : Bool :=
  if isCompressed pubkey ≠ key.fCompressed then false
  else C.verify pubkey hash (C.sign key.vch.1 hash)

def load (privkey vchPubKey : Bytes) (fSkipCheck : Bool) (hash : Bytes) : Option CKey :=
  match importDer privkey with
  | none => none
  | some vch =>
    let key : CKey := ⟨isCompressed vchPubKey, vch⟩
    if fSkipCheck then some key
    else if key.verifyPubKey C vchPubKey hash then some key else none

end

def generator : Point :=
  .ofNats 0x79BE667EF9DCBBAC55A06295CE870B07029BFCDB2DCE28D959F2815B16F81798
    0x483ADA7726A3C4655DA4FBFC0E1108A8FD17B448A68554199C47D08FFB10D4B8

def fieldPrime : Nat := 2 ^ 256 - 2 ^ 32 - 977

def ecParameters (base : Bytes) : Bytes :=
  tlv 0x30 (tlv 0x02 [1] ++
    tlv 0x30 (tlv 0x06 [0x2A, 0x86, 0x48, 0xCE, 0x3D, 0x01, 0x01] ++
      tlv 0x02 (0 :: beBytes 32 fieldPrime)) ++
    tlv 0x30 (tlv 0x04 [0] ++ tlv 0x04 [7]) ++ tlv 0x04 base ++
    tlv 0x02 (0 :: beBytes 32 order) ++ tlv 0x02 [1])

/-- The DER structure of a private key, in which every length is that of what stands behind it. -/
def ecPrivateKey (secret base pubkey : Bytes) : Bytes :=
  tlv 0x30 (tlv 0x02 [1] ++ tlv 0x04 secret ++ tlv 0xA0 (ecParameters base) ++
    tlv 0xA1 (tlv 0x03 (0 :: pubkey)))

def embeddedPubKey (privkey : Bytes) : Option Bytes := do
  let (body, _) ← readTlv 0x30 privkey
  let (_, body) ← readTlv 0x02 body
  let (_, body) ← readTlv 0x04 body
  let (_, body) ← readTlv 0xA0 body
  let (body, _) ← readTlv 0xA1 body
  let (bits, _) ← readTlv 0x03 body
  some (bits.drop 1)

theorem length_compressed (pubkey : Point) :
    (pubkeySerialize pubkey SECP256K1_EC_COMPRESSED).length = 33 :=
  congrArg Nat.succ pubkey.x_length

theorem length_uncompressed (pubkey : Point) :
    (pubkeySerialize pubkey SECP256K1_EC_UNCOMPRESSED).length = 65 := by
  change (pubkey.x ++ pubkey.y).length + 1 = 65
  rw [length_append, pubkey.x_length, pubkey.y_length]

theorem compressedMiddle_eq :
    compressedMiddle =
      tlv 0xA0 (ecParameters (pubkeySerialize generator SECP256K1_EC_COMPRESSED)) ++
        [0xA1, 0x24, 0x03, 0x22, 0x00] := by
  decide +kernel

theorem uncompressedMiddle_eq :
    uncompressedMiddle =
      tlv 0xA0 (ecParameters (pubkeySerialize generator SECP256K1_EC_UNCOMPRESSED)) ++
        [0xA1, 0x44, 0x03, 0x42, 0x00] := by
  decide +kernel

theorem ecPrivateKey_eq (hsecret : secret.length = 32)
    (hparams : (tlv 0xA0 (ecParameters base)).length = params) (hpubkey : pubkey.length = size)
    (hsize : size + 3 < 0x80) :
    ecPrivateKey secret base pubkey =
      0x30 :: (lengthOctets (42 + params + size) ++ (0x02 :: 0x01 :: 0x01 :: 0x04 :: 0x20 ::
        (secret ++ (tlv 0xA0 (ecParameters base) ++
          [0xA1, UInt8.ofNat (size + 3), 0x03, UInt8.ofNat (size + 1), 0x00] ++ pubkey)))) := by
  have hbits : tlv 0x03 (0 :: pubkey) = 0x03 :: UInt8.ofNat (size + 1) :: 0 :: pubkey :=
    tlv_short 0x03 (by rw [length_cons, hpubkey]) (by omega)
  have houter : tlv 0xA1 (tlv 0x03 (0 :: pubkey)) =
      0xA1 :: UInt8.ofNat (size + 3) :: 0x03 :: UInt8.ofNat (size + 1) :: 0 :: pubkey := by
    rw [hbits]
    exact tlv_short 0xA1 (by simp [hpubkey]) hsize
  have hkey : tlv 0x04 secret = 0x04 :: 0x20 :: secret := tlv_short 0x04 hsecret (by decide)
  have hversion : tlv 0x02 [1] = [0x02, 0x01, 0x01] := by decide
  rw [ecPrivateKey, hversion, hkey, houter]
  have hlength : ([0x02, 0x01, 0x01] ++ (0x04 :: 0x20 :: secret) ++ tlv 0xA0 (ecParameters base) ++
      (0xA1 :: UInt8.ofNat (size + 3) :: 0x03 :: UInt8.ofNat (size + 1) :: 0 :: pubkey)).length =
        42 + params + size := by
    simp only [length_append, length_cons, length_nil, hsecret, hparams, hpubkey]
    omega
  rw [tlv_of_length 0x30 hlength]
  simp

theorem length_params_compressed :
    (tlv 0xA0 (ecParameters (pubkeySerialize generator SECP256K1_EC_COMPRESSED))).length = 136 := by
  decide +kernel

theorem length_params_uncompressed :
    (tlv 0xA0 (ecParameters (pubkeySerialize generator SECP256K1_EC_UNCOMPRESSED))).length = 168 := by
  decide +kernel

def templateFlags (compressed : Nat) : Nat :=
  if compressed ≠ 0 then SECP256K1_EC_COMPRESSED else SECP256K1_EC_UNCOMPRESSED

theorem pubkeyCreate_secret (C : Curve) (key32 : Secret) :
    pubkeyCreate C key32.1 = some (C.ecmultGen (beValue key32.1)) := if_pos key32.2.2

theorem exportDer_eq (C : Curve) (key32 : Secret) (compressed : Nat) :
    exportDer C key32.1 compressed =
      some (ecPrivateKey key32.1 (pubkeySerialize generator (templateFlags compressed))
        (pubkeySerialize (C.ecmultGen (beValue key32.1)) (templateFlags compressed))) := by
  rw [exportDer, pubkeyCreate_secret, templateFlags]
  by_cases h : compressed ≠ 0
  · simp only [if_pos h]
    rw [ecPrivateKey_eq key32.2.1 length_params_compressed (length_compressed _) (by decide),
      compressedMiddle_eq]
    simp only [append_assoc]
    rfl
  · simp only [if_neg h]
    rw [ecPrivateKey_eq key32.2.1 length_params_uncompressed (length_uncompressed _) (by decide),
      uncompressedMiddle_eq]
    simp only [append_assoc]
    rfl

theorem embeddedPubKey_ecPrivateKey (h : (ecPrivateKey secret base pubkey).length < 256 ^ 127) :
    embeddedPubKey (ecPrivateKey secret base pubkey) = some pubkey := by
  rw [ecPrivateKey] at h ⊢
  have hbody := (length_lt_tlv _ _).trans h
  have hinside : ∀ {n}, n ≤ (tlv 0x02 [1] ++ tlv 0x04 secret ++ tlv 0xA0 (ecParameters base) ++
      tlv 0xA1 (tlv 0x03 (0 :: pubkey))).length → n < 256 ^ 127 := fun hn => lt_of_le_of_lt hn hbody
  have hsecret := length_lt_tlv 0x04 secret
  have hparams := length_lt_tlv 0xA0 (ecParameters base)
  have houter := length_lt_tlv 0xA1 (tlv 0x03 (0 :: pubkey))
  have hbits := length_lt_tlv 0x03 (0 :: pubkey)
  simp only [length_append] at hinside
  rw [embeddedPubKey, readTlv_tlv_nil 0x30 hbody]
  simp only [append_assoc, Option.bind_eq_bind, Option.bind_some]
  rw [readTlv_tlv 0x02 (by decide)]
  simp only [Option.bind_some]
  rw [readTlv_tlv 0x04 (hinside (by omega))]
  simp only [Option.bind_some]
  rw [readTlv_tlv 0xA0 (hinside (by omega))]
  simp only [Option.bind_some]
  rw [readTlv_tlv_nil 0xA1 (hinside (by omega))]
  simp only [Option.bind_some]
  rw [readTlv_tlv_nil 0x03 (hinside (by omega))]
  rfl

theorem importDer_template (secret : Secret) (hrest : rest.length = 174) :
    importDer (0x30 :: 0x81 :: 0xD3 :: 0x02 :: 0x01 :: 0x01 :: 0x04 :: 0x20 :: (secret.1 ++ rest)) =
      some secret := by
  obtain ⟨vch, hlength, hverify⟩ := secret
  have hlenb : ((0x81 : UInt8) &&& 0x7f).toNat = 1 := rfl
  have hmark : (0x81 : UInt8) &&& 0x80 ≠ 0 := by decide
  have htake : (vch ++ rest).take 32 = vch := take_left' hlength
  simp [importDer, hlenb, hmark, hlength, hrest, htake, hverify]

section

variable (C : Curve) (key : CKey)

def CKey.compressedPubKey : Bytes :=
  pubkeySerialize (C.ecmultGen (beValue key.vch.1)) SECP256K1_EC_COMPRESSED

/-- Both flag words count as true, so `GetPrivKey` uses the compressed template for every key. -/
theorem getPrivKey_eq :
    key.getPrivKey C = some (ecPrivateKey key.vch.1
      (pubkeySerialize generator SECP256K1_EC_COMPRESSED) (key.compressedPubKey C)) := by
  have hflags : key.flags ≠ 0 := by
    rw [CKey.flags]
    cases key.fCompressed <;> decide
  rw [CKey.getPrivKey, exportDer_eq, templateFlags, if_pos hflags]
  rfl

theorem getLen_compressed (b : UInt8) : getLen (0x02 ||| (b &&& 1)) = 33 :=
  byte_cases (p := fun b => getLen (0x02 ||| (b &&& 1)) = 33) (by decide +kernel) b

theorem getPubKey_eq :
    key.getPubKey C = some (pubkeySerialize (C.ecmultGen (beValue key.vch.1)) key.flags) ∧
      (pubkeySerialize (C.ecmultGen (beValue key.vch.1)) key.flags).length =
        if key.fCompressed then 33 else 65 := by
  rw [CKey.getPubKey, pubkeyCreate_secret, CKey.flags]
  cases key.fCompressed with
  | false =>
    have hlength := length_uncompressed (C.ecmultGen (beValue key.vch.1))
    exact ⟨if_pos hlength.symm, hlength⟩
  | true =>
    have hlength := length_compressed (C.ecmultGen (beValue key.vch.1))
    exact ⟨if_pos ((getLen_compressed _).trans hlength.symm), hlength⟩

theorem template_of_getPrivKey (h : key.getPrivKey C = some privkey) :
    ∃ rest, rest.length = 174 ∧ privkey =
      0x30 :: 0x81 :: 0xD3 :: 0x02 :: 0x01 :: 0x01 :: 0x04 :: 0x20 :: (key.vch.1 ++ rest) := by
  rw [getPrivKey_eq] at h
  cases h
  have hpubkey : (key.compressedPubKey C).length = 33 := length_compressed _
  have hoctets : lengthOctets (42 + 136 + 33) = [0x81, 0xD3] := by decide
  rw [ecPrivateKey_eq key.vch.2.1 length_params_compressed hpubkey (by decide), hoctets]
  refine ⟨_, ?_, rfl⟩
  rw [length_append, length_append, length_params_compressed, hpubkey]
  rfl

theorem importDer_getPrivKey (h : key.getPrivKey C = some privkey) :
    importDer privkey = some key.vch := by
  obtain ⟨rest, hrest, rfl⟩ := template_of_getPrivKey C key h
  exact importDer_template key.vch hrest

theorem privKey_round_trip (hprivkey : key.getPrivKey C = some privkey)
    (hpubkey : key.getPubKey C = some pubkey) (fSkipCheck : Bool) (hash : Bytes) :
    setPrivKey privkey key.fCompressed = some key ∧
      load C privkey pubkey fSkipCheck hash = some key := by
  have himport := importDer_getPrivKey C key hprivkey
  obtain ⟨heq, hlength⟩ := getPubKey_eq C key
  rw [hpubkey] at heq
  cases heq
  have hcompressed : isCompressed (pubkeySerialize (C.ecmultGen (beValue key.vch.1)) key.flags) =
      key.fCompressed := by
    rw [isCompressed, hlength]
    cases key.fCompressed <;> rfl
  have hverify : key.verifyPubKey C
      (pubkeySerialize (C.ecmultGen (beValue key.vch.1)) key.flags) hash = true := by
    rw [CKey.verifyPubKey, if_neg (fun hne => hne hcompressed)]
    exact C.verify_sign key.vch key.flags hash
  constructor
  · rw [setPrivKey, himport]
    rfl
  · rw [load, himport]
    simp [hcompressed, hverify]

/-- The export has correct lengths, embeds the key's own public key and gives the key back. -/
structure GoodPrivKey (privkey pubkey : Bytes) : Prop where
  lengths : ∃ base embedded, privkey = ecPrivateKey key.vch.1 base embedded
  pubkey_length : pubkey.length = if key.fCompressed then 33 else 65
  embedded : embeddedPubKey privkey = some pubkey
  setPrivKey : setPrivKey privkey key.fCompressed = some key
  load : ∀ fSkipCheck hash, load C privkey pubkey fSkipCheck hash = some key

theorem embedded_getPrivKey (h : key.getPrivKey C = some privkey) :
    embeddedPubKey privkey = some (key.compressedPubKey C) := by
  obtain ⟨rest, hrest, heq⟩ := template_of_getPrivKey C key h
  have hlength : privkey.length = 214 := by
    simp only [heq, length_cons, length_append, key.vch.2.1, hrest]
  rw [getPrivKey_eq] at h
  cases h
  apply embeddedPubKey_ecPrivateKey
  rw [hlength]
  decide

/-- The export of a valid key is a good one exactly if the key is compressed, because it always
embeds the compressed public key. -/
theorem privKey_embeds_pubKey_iff :
    (∃ privkey pubkey, key.getPrivKey C = some privkey ∧ key.getPubKey C = some pubkey ∧
      GoodPrivKey C key privkey pubkey) ↔ key.fCompressed = true := by
  obtain ⟨hpubkey, hlength⟩ := getPubKey_eq C key
  have hprivkey := getPrivKey_eq C key
  have hembedded := embedded_getPrivKey C key hprivkey
  constructor
  · rintro ⟨privkey, pubkey, hprivkey', hpubkey', hgood⟩
    rw [hprivkey] at hprivkey'
    cases hprivkey'
    have hsame := hgood.embedded
    rw [hembedded] at hsame
    have hsize := hgood.pubkey_length
    rw [← Option.some.inj hsame, CKey.compressedPubKey, length_compressed] at hsize
    by_contra hflag
    rw [if_neg hflag] at hsize
    cases hsize
  · intro hflag
    have hround := privKey_round_trip C key hprivkey hpubkey
    refine ⟨_, _, hprivkey, hpubkey, ⟨_, _, rfl⟩, hlength, ?_, (hround true []).1,
      fun fSkipCheck hash => (hround fSkipCheck hash).2⟩
    rw [hembedded, CKey.compressedPubKey, CKey.flags, hflag]
    rfl

end

def oneCurve : Curve where
  ecmultGen _ := generator
  sign _ _ := []
  verify _ _ _ := true
  verify_sign _ _ _ := rfl

def keyOne : CKey := ⟨false, beBytes 32 1, by decide⟩

/-- The uncompressed key of the secret 1 embeds 33 bytes, while its public key has 65. -/
theorem uncompressed_embeds_compressed :
    keyOne.fCompressed = false ∧ ∃ privkey embedded pubkey,
      keyOne.getPrivKey oneCurve = some privkey ∧ embeddedPubKey privkey = some embedded ∧
        keyOne.getPubKey oneCurve = some pubkey ∧ embedded.length = 33 ∧ pubkey.length = 65 :=
  ⟨rfl, _, _, _, getPrivKey_eq oneCurve keyOne,
    embedded_getPrivKey oneCurve keyOne (getPrivKey_eq oneCurve keyOne),
    (getPubKey_eq oneCurve keyOne).1, rfl, rfl⟩

end Utsuite.PrivKey
