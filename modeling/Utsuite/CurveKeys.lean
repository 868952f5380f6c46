import Utsuite.BitPack
import Utsuite.DumpText
import Utsuite.PrivKey

namespace Utsuite.CurveKeys

open BitPack ByteWords DumpText Wallet WalletFile
open PrivKey (Curve Point pubkeySerialize seckeyVerify SECP256K1_EC_COMPRESSED)

def onCurve (key : CKey) : Option PrivKey.CKey :=
  if h : key.vch.length = 32 ∧ seckeyVerify key.vch = true then some ⟨key.fCompressed, key.vch, h⟩
  else none

theorem load_getPrivKey_onCurve (C : Curve) (random : Bytes) (key : CKey)
    (hlength : key.vch.length = 32) (hcheck : seckeyVerify key.vch = true) (fSkipCheck : Bool) :
    (PrivKey.load C (((onCurve key).bind fun k => k.getPrivKey C).getD key.vch)
      (((onCurve key).bind fun k => k.getPubKey C).getD key.vch) fSkipCheck random).map
        (fun k => (⟨k.fCompressed, k.vch.1⟩ : CKey)) = some key := by
  let k : PrivKey.CKey := ⟨key.fCompressed, key.vch, hlength, hcheck⟩
  have hk : onCurve key = some k := dif_pos ⟨hlength, hcheck⟩
  have hprivkey := PrivKey.getPrivKey_eq C k
  have hpubkey := (PrivKey.getPubKey_eq C k).1
  have hload := (PrivKey.privKey_round_trip C k hprivkey hpubkey fSkipCheck random).2
  rw [hk, Option.bind_some, Option.bind_some, hprivkey, hpubkey, Option.getD_some,
    Option.getD_some, hload]
  rfl

/-- The functions of a wallet's keys as `CKey` computes them on a curve. `GetPubKey` and
`GetPrivKey` assert that the key is valid, so it does not matter what stands for them on other keys.
-/
def curveKeys (C : Curve) (hash160 hash : Bytes → Bytes) (random : Bytes) : KeyFunctions where
  check := seckeyVerify
  getPubKey key := ((onCurve key).bind fun k => k.getPubKey C).getD key.vch
  getID := hash160
  getPrivKey key := ((onCurve key).bind fun k => k.getPrivKey C).getD key.vch
  load privkey vchPubKey fSkipCheck :=
    (PrivKey.load C privkey vchPubKey fSkipCheck random).map fun k => ⟨k.fCompressed, k.vch.1⟩
  hash := hash
  load_getPrivKey := load_getPrivKey_onCurve C random

/-- The points of the secrets 1, 2 and 3. For other secrets the point has an odd `y` here, which
none of these three has. -/
def samplePoint (k : Nat) : Point :=
  if k = 1 then PrivKey.generator
  else if k = 2 then
    .ofNats 0xc6047f9441ed7d6d3045406e95c07cd85c778e4b8cef3ca7abac09b95c709ee5
      0x1ae168fea63dc339a3c58419466ceaeef7f632653266d0e1236431a950cfe52a
  else if k = 3 then
    .ofNats 0xf9308a019258c31049344f85f89d5229b531c845836f99b08601f113bce036f9
      0x388f7b0f632de8140fe337e62a37f3566500a99934c2231b6cb9fd7584b8e672
  else .ofNats k 1

def sampleCurve : Curve := { PrivKey.oneCurve with ecmultGen := samplePoint }

def samplePubKey (k : Nat) : CPubKey := pubkeySerialize (samplePoint k) SECP256K1_EC_COMPRESSED

def sampleKey (k : Nat) : CKey := ⟨true, beBytes 32 k⟩

def sampleID (k : Nat) : CKeyID :=
  beBytes 20 (if k = 1 then 0x751e76e8199196d454941c45d1b3a323f1433bd6
    else if k = 2 then 0x06afd46bcdfd22ef94ac122aa11f241244a37ecc
    else 0x7dd65592d0ab2fe0d0257d571abf032cd9db93dc)

def sampleHash160 (data : Bytes) : Bytes :=
  if data = samplePubKey 1 then sampleID 1
  else if data = samplePubKey 2 then sampleID 2
  else if data = samplePubKey 3 then sampleID 3 else data

def sampleHash (data : Bytes) : {digest : Bytes // digest.length = 32} :=
  ⟨beBytes 32 (
    if data = 128 :: beBytes 32 1 ++ [1] then
      0x4671fc3f80de85b50cc4d7d718fbe440800b885dba9e2b4c2cf930d1e4682401
    else if data = 68 :: sampleID 1 then
      0x4a1c15ac8fdb5219ddd84c5db585f6fafd37680a59ec9c409a3cea86aac00fd0
    else if data = samplePubKey 1 then
      0xb1cd0a4eb6d1cea5eb288fb4474ac403eab044004cc48f12bcb4ca8346d487e1
    else if data.take 33 = samplePubKey 1 then
      0x3384563a8f12bef4e6703208fcfc016f30ae2ba673d1c5a45dd9fc942c547732
    else 1), beBytes_length _ _⟩

/-- The constants of the main network. The two times are those of the samples. -/
def sampleProgram : Program where
  hash := sampleHash
  secretKey := 128
  pubkeyAddress := 68
  encodeDumpTime nTime :=
    if nTime = 1 then "1970-01-01T00:00:01Z".toUTF8.toList else "2017-07-14T02:40:00Z".toUTF8.toList
  decodeDumpTime text :=
    if text = "1970-01-01T00:00:01Z".toUTF8.toList then 1 else 1500000000
  clientBuild := "0.1.1.0".toUTF8.toList
  clientDate := "2018-03-03 09:42:45 +0800".toUTF8.toList

def sampleSetting (makeNewKey : Nat → CKey) (keypool : Int) : Setting where
  fn := curveKeys sampleCurve sampleHash160 (fun data => sampleHash data) []
  makeNewKey := makeNewKey
  creationTime _ := 1500000000
  poolTime _ := 1500000000
  keypool := keypool

def oneKey : Setting := sampleSetting (fun _ => sampleKey 1) 0

theorem sampleKey_valid : oneKey.fn.Valid (sampleKey 1) := ⟨rfl, by decide +kernel⟩

theorem eq_one_of_pubkey (h : pubkeySerialize (samplePoint k) SECP256K1_EC_COMPRESSED =
    samplePubKey 1) : k = 1 := by
  by_contra h1
  have hhead := congrArg List.head? h
  rw [samplePoint, if_neg h1] at h hhead
  split_ifs at h hhead with h2 h3
  · revert h
    decide +kernel
  · revert h
    decide +kernel
  · revert hhead
    exact (by decide +kernel : some (0x02 ||| ((beBytes 32 1).getLastD 0 &&& 1) : UInt8) ≠
      (samplePubKey 1).head?)

theorem eq_sampleKey (hvalid : oneKey.fn.Valid key)
    (hpubkey : oneKey.fn.getPubKey key = samplePubKey 1) : key = sampleKey 1 := by
  obtain ⟨fCompressed, vch⟩ := key
  have hk : onCurve ⟨fCompressed, vch⟩ = some ⟨fCompressed, vch, hvalid⟩ := dif_pos hvalid
  have hcurve := (PrivKey.getPubKey_eq sampleCurve ⟨fCompressed, vch, hvalid⟩).1
  change ((onCurve ⟨fCompressed, vch⟩).bind fun k => k.getPubKey sampleCurve).getD vch = _ at hpubkey
  rw [hk, Option.bind_some, hcurve, Option.getD_some] at hpubkey
  cases fCompressed with
  | false =>
    change pubkeySerialize _ PrivKey.SECP256K1_EC_UNCOMPRESSED = _ at hpubkey
    rw [pubkeySerialize, if_neg (by decide)] at hpubkey
    have hhead := congrArg List.head? hpubkey
    rw [List.head?_cons] at hhead
    exact absurd hhead (by decide +kernel)
  | true =>
    have hone : beValue vch = 1 := eq_one_of_pubkey hpubkey
    rw [sampleKey, ← hone, ← hvalid.1, beBytes_beValue]

theorem oneKey_clock : oneKey.creationTime n ≠ 0 := (by decide : (1500000000 : Int) ≠ 0)

def sampleSecret : Bytes :=
  "KwDiBf89QgGbjEhKnhXJuH7LrciVrZi3qYjgd9M7rFU73sVHnoWn".toUTF8.toList

def runsTo (m : WalletM Unit) (p : CWallet → Bool) (w : CWallet) : Bool :=
  match m w with
  | .ok _ t => p t
  | .error _ _ => false

theorem ok_of_run {m : WalletM Unit} {w : CWallet} {p : CWallet → Prop} [DecidablePred p]
    (h : runsTo m (fun t => decide (p t)) w = true) : ∃ t, m w = .ok () t ∧ p t := by
  rw [runsTo] at h
  cases hrun : m w with
  | ok a t =>
    rw [hrun] at h
    exact ⟨t, rfl, of_decide_eq_true h⟩
  | error e t =>
    rw [hrun] at h
    cases h

end Utsuite.CurveKeys
