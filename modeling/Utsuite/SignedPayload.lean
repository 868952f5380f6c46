import Utsuite.CurveKeys

namespace Utsuite.SignedPayload

open ByteWords CurveKeys WireFormat Transaction List
open DumpText (hexStr)
open Wallet (CKey)

abbrev string := {str : Bytes // str.length < 2 ^ 64}

abbrev PubKey := {vch : Bytes // UosAddress.CPubKey.set vch = vch}

abbrev CKeyID := {id : Bytes // id.length = 20}

def writeString (str : string) : Bytes := writeCompactSize str.1.length ++ str.1

def writePubKey (pubkey : PubKey) : Bytes := writeCompactSize pubkey.1.length ++ pubkey.1

def strMessageMagic : string :=
  ⟨"Ulord Signed Message:\n".toList.map Char.toUInt8, by decide⟩

def PROTOCOL_VERSION : Nat := 70206

def CKeyID.toString (id : CKeyID) : Bytes := id.1.reverse.flatMap hexStr

def lexicalCast (n : Nat) : Bytes := (Nat.toDigits 10 n).map Char.toUInt8

inductive Signed
  | hash (strMessage : string)
  | message (strMessage : string)
  | messageAt (strMessage : string) (timestamps : Int64)
  | license (strTxid : string) (txididx : Int32) (pubkeyMaster : PubKey) (idate : Int64)

def payload : Signed → Bytes
  | .hash strMessage => writeString strMessage
  | .message strMessage => writeString strMessageMagic ++ writeString strMessage
  | .messageAt strMessage timestamps =>
    writeString strMessageMagic ++ writeString strMessage ++ int64Format.write timestamps
  | .license strTxid txididx pubkeyMaster idate =>
    writeString strMessageMagic ++ writeString strTxid ++ int32Format.write txididx ++
      writePubKey pubkeyMaster ++ int64Format.write idate ++ int32Format.write 1

def mnpMessage (straddr : Bytes) (collate master : CKeyID) : Bytes :=
  straddr ++ CKeyID.toString collate ++ CKeyID.toString master ++ lexicalCast PROTOCOL_VERSION

/-- The hash and the curve, with the decoding of keys. A key of `none` is one that is not valid. -/
structure Signer (Digest : Type) where
  getHash : Bytes → Digest
  setString : Bytes → Option (Option CKey)
  getKey : Bytes → Except KeyCode.Thrown (Option CKey)
  getPubKey : CKey → PubKey
  getID : PubKey → CKeyID
  signCompact : CKey → Digest → Option Bytes
  recoverCompact : Digest → Bytes → Option PubKey

inductive Thrown
  | jsonRPCError (code : Int) (message : String)
  | assertion
  | keyCode (e : KeyCode.Thrown)
  | lengthError
  deriving DecidableEq

def RPC_INVALID_PARAMETER : Int := -8

def RPC_INVALID_ADDRESS_OR_KEY : Int := -5

def invalidPrivkey : Thrown :=
  .jsonRPCError RPC_INVALID_PARAMETER "Invalid strPrivkey  . Please useing the correct Key."

def signFailed : Thrown := .jsonRPCError RPC_INVALID_ADDRESS_OR_KEY "Sign failed"

section

variable {Digest : Type} (S : Signer Digest)

def getKeysFromSecret (strSecret : Bytes) : Except Thrown (CKey × PubKey) :=
  match S.setString strSecret with
  | none => .error invalidPrivkey
  | some none => .error .assertion
  | some (some key) => .ok (key, S.getPubKey key)

def verifyHash (hash : Digest) (pubkey : PubKey) (vchSig : Bytes) : Bool :=
  match S.recoverCompact hash vchSig with
  | none => false
  | some pubkeyFromSig => S.getID pubkeyFromSig = S.getID pubkey

def signMessage (strMessage : string) (key : CKey) : Option Bytes :=
  S.signCompact key (S.getHash (payload (.message strMessage)))

def signMessageAt (strMessage : string) (timestamps : Int64) (key : CKey) : Option Bytes :=
  S.signCompact key (S.getHash (payload (.messageAt strMessage timestamps)))

def signOrThrow (key : CKey) (p : Signed) : Except Thrown Bytes :=
  match S.signCompact key (S.getHash (payload p)) with
  | none => .error signFailed
  | some vchSig => .ok vchSig

def signhash (strkey : Bytes) (strMsg : string) : Except Thrown Bytes := do
  let (key, _) ← getKeysFromSecret S strkey
  signOrThrow S key (.hash strMsg)

def signmnpmessage (strPrivKey strMasterKey straddr : Bytes) : Except Thrown Bytes := do
  let (keyCollate, pubkeyCollate) ← getKeysFromSecret S strPrivKey
  let (_, pubkeyMaster) ← getKeysFromSecret S strMasterKey
  let strMessage := mnpMessage straddr (S.getID pubkeyCollate) (S.getID pubkeyMaster)
  if h : strMessage.length < 2 ^ 64 then signOrThrow S keyCollate (.message ⟨strMessage, h⟩)
  else .error .lengthError

/-- `signlicmessage`, which returns the text `false` in place of a signature for `none`. -/
def signlicmessage (strPrivKey : Bytes) (strTxid : string) (strMasterKey : Bytes) (idate : Int64)
    (txididx : Int32) : Except Thrown (Option Bytes) := do
  let (_, pubkeyMaster) ← getKeysFromSecret S strMasterKey
  match S.getKey strPrivKey with
  | .error e => .error (.keyCode e)
  | .ok none => .ok none
  | .ok (some signkey) =>
    .ok (S.signCompact signkey
      (S.getHash (payload (.license strTxid txididx pubkeyMaster idate))))

inductive MadeFor : CKey → Bytes → Signed → Prop
  | signhash {strkey : Bytes} {strMsg : string} {key : CKey} {pubkey : PubKey} {vchSig : Bytes} :
      getKeysFromSecret S strkey = .ok (key, pubkey) → signhash S strkey strMsg = .ok vchSig →
        MadeFor key vchSig (.hash strMsg)
  | signMessage {strMessage : string} {key : CKey} {vchSig : Bytes} :
      signMessage S strMessage key = some vchSig → MadeFor key vchSig (.message strMessage)
  | signMessageAt {strMessage : string} {timestamps : Int64} {key : CKey} {vchSig : Bytes} :
      signMessageAt S strMessage timestamps key = some vchSig →
        MadeFor key vchSig (.messageAt strMessage timestamps)
  | signmnpmessage {strPrivKey strMasterKey straddr : Bytes} {key keyMaster : CKey}
      {pubkey pubkeyMaster : PubKey} {vchSig : Bytes} {strMessage : string} :
      getKeysFromSecret S strPrivKey = .ok (key, pubkey) →
        getKeysFromSecret S strMasterKey = .ok (keyMaster, pubkeyMaster) →
        strMessage.1 = mnpMessage straddr (S.getID pubkey) (S.getID pubkeyMaster) →
        signmnpmessage S strPrivKey strMasterKey straddr = .ok vchSig →
        MadeFor key vchSig (.message strMessage)
  | signlicmessage {strPrivKey strMasterKey : Bytes} {strTxid : string} {idate : Int64}
      {txididx : Int32} {key keyMaster : CKey} {pubkeyMaster : PubKey} {vchSig : Bytes} :
      getKeysFromSecret S strMasterKey = .ok (keyMaster, pubkeyMaster) →
        S.getKey strPrivKey = .ok (some key) →
        signlicmessage S strPrivKey strTxid strMasterKey idate txididx = .ok (some vchSig) →
        MadeFor key vchSig (.license strTxid txididx pubkeyMaster idate)

end

theorem writeString_selfDelimiting : SelfDelimiting writeString :=
  compactSize_selfDelimiting.header (fun str => ⟨str.1.length, str.2⟩)
    (fun _ _ h => congrArg Subtype.val h) Subtype.val_injective

theorem getLen_le (chHeader : UInt8) : UosAddress.getLen chHeader ≤ 65 := by
  rw [UosAddress.getLen]
  split
  · decide
  · split
    · decide
    · decide

theorem length_pubKey_lt (pubkey : PubKey) : pubkey.1.length < 2 ^ 64 := by
  obtain ⟨vch, hset⟩ := pubkey
  cases vch with
  | nil => exact Nat.two_pow_pos 64
  | cons chHeader vch =>
    rw [UosAddress.CPubKey.set] at hset
    split at hset
    · next h =>
        have hle : (chHeader :: vch).length ≤ 65 := h.2 ▸ getLen_le chHeader
        exact lt_of_le_of_lt hle (by decide)
    · cases hset

theorem writePubKey_selfDelimiting : SelfDelimiting writePubKey :=
  compactSize_selfDelimiting.header (fun pubkey : PubKey => ⟨pubkey.1.length, length_pubKey_lt pubkey⟩)
    (fun _ _ h => congrArg Subtype.val h) Subtype.val_injective

theorem magic_text {text text' : string} {tail tail' : Bytes}
    (h : writeString strMessageMagic ++ (writeString text ++ tail) =
      writeString strMessageMagic ++ (writeString text' ++ tail')) : text = text' ∧ tail = tail' := by
  obtain ⟨-, hrest⟩ := writeString_selfDelimiting h
  exact writeString_selfDelimiting hrest

theorem writeCompactSize_ne_nil (n : Nat) : writeCompactSize n ≠ [] := by
  rw [writeCompactSize]
  split_ifs <;> exact cons_ne_nil _ _

theorem plain_ne_magic (strMessage text : string) (tail : Bytes) :
    writeString strMessage ≠ writeString strMessageMagic ++ (writeString text ++ tail) := by
  intro h
  rw [← append_nil (writeString strMessage)] at h
  obtain ⟨-, hrest⟩ := writeString_selfDelimiting h
  have htext := (append_eq_nil_iff.mp hrest.symm).1
  exact writeCompactSize_ne_nil _ (append_eq_nil_iff.mp htext).1

def licenseTail (txididx : Int32) (pubkeyMaster : PubKey) (idate : Int64) : Bytes :=
  int32Format.write txididx ++ (writePubKey pubkeyMaster ++
    (int64Format.write idate ++ int32Format.write 1))

theorem length_int64 (n : Int64) : (int64Format.write n).length = 8 := leBytes_length _ _

theorem length_int32 (n : Int32) : (int32Format.write n).length = 4 := leBytes_length _ _

theorem length_licenseTail (txididx : Int32) (pubkeyMaster : PubKey) (idate : Int64) :
    16 ≤ (licenseTail txididx pubkeyMaster idate).length := by
  simp only [licenseTail, length_append, length_int32, length_int64]
  omega

theorem licenseTail_inj
    (h : licenseTail txididx pubkeyMaster idate = licenseTail txididx' pubkeyMaster' idate') :
    txididx = txididx' ∧ pubkeyMaster = pubkeyMaster' ∧ idate = idate' := by
  obtain ⟨hidx, h⟩ := int32Format_canonical.selfDelimiting h
  obtain ⟨hpubkey, h⟩ := writePubKey_selfDelimiting h
  obtain ⟨hdate, -⟩ := int64Format_canonical.selfDelimiting h
  exact ⟨hidx, hpubkey, hdate⟩

def Signed.parts : Signed → Option (string × Bytes)
  | .hash _ => none
  | .message strMessage => some (strMessage, [])
  | .messageAt strMessage timestamps => some (strMessage, int64Format.write timestamps)
  | .license strTxid txididx pubkeyMaster idate =>
    some (strTxid, licenseTail txididx pubkeyMaster idate)

theorem payload_parts {p : Signed} {text : string} {tail : Bytes} (h : p.parts = some (text, tail)) :
    payload p = writeString strMessageMagic ++ (writeString text ++ tail) := by
  cases p with
  | hash => cases h
  | message =>
    cases h
    rw [payload, append_nil]
  | messageAt =>
    cases h
    rw [payload, append_assoc]
  | license =>
    cases h
    simp [payload, licenseTail]

theorem parts_none {p : Signed} (h : p.parts = none) : ∃ strMessage, p = .hash strMessage := by
  cases p with
  | hash strMessage => exact ⟨strMessage, rfl⟩
  | message | messageAt | license => cases h

theorem parts_cases {p : Signed} {text : string} {tail : Bytes} (h : p.parts = some (text, tail)) :
    (tail.length = 0 ∧ p = .message text) ∨
      (tail.length = 8 ∧ ∃ t, tail = int64Format.write t ∧ p = .messageAt text t) ∨
      (16 ≤ tail.length ∧ ∃ i k d, tail = licenseTail i k d ∧ p = .license text i k d) := by
  cases p with
  | hash => cases h
  | message =>
    cases h
    exact .inl ⟨rfl, rfl⟩
  | messageAt m t =>
    cases h
    exact .inr (.inl ⟨length_int64 t, t, rfl, rfl⟩)
  | license m i k d =>
    cases h
    exact .inr (.inr ⟨length_licenseTail i k d, i, k, d, rfl, rfl⟩)

theorem parts_inj {p q : Signed} {text : string} {tail : Bytes} (hp : p.parts = some (text, tail))
    (hq : q.parts = some (text, tail)) : p = q := by
  rcases parts_cases hp with ⟨hlen, rfl⟩ | ⟨hlen, t, ht, rfl⟩ | ⟨hlen, i, k, d, hi, rfl⟩ <;>
    rcases parts_cases hq with ⟨hlen', rfl⟩ | ⟨hlen', t', ht', rfl⟩ | ⟨hlen', i', k', d', hi', rfl⟩
  -- where the kinds differ the lengths do
  any_goals omega
  · rfl
  · rw [ht] at ht'
    rw [int64Format_canonical.selfDelimiting.injective ht']
  · rw [hi] at hi'
    obtain ⟨rfl, rfl, rfl⟩ := licenseTail_inj hi'
    rfl

theorem payload_injective : Function.Injective payload := by
  intro p q h
  cases hp : p.parts with
  | none =>
    obtain ⟨m, rfl⟩ := parts_none hp
    cases hq : q.parts with
    | none =>
      obtain ⟨m', rfl⟩ := parts_none hq
      rw [writeString_selfDelimiting.injective h]
    | some parts =>
      rw [payload_parts hq] at h
      exact absurd h (plain_ne_magic _ _ _)
  | some parts =>
    cases hq : q.parts with
    | none =>
      obtain ⟨m', rfl⟩ := parts_none hq
      rw [payload_parts hp] at h
      exact absurd h.symm (plain_ne_magic _ _ _)
    | some parts' =>
      rw [payload_parts hp, payload_parts hq] at h
      obtain ⟨htext, htail⟩ := magic_text h
      obtain rfl : parts = parts' := Prod.ext htext htail
      exact parts_inj hp hq

section

theorem length_toString (id : CKeyID) : (CKeyID.toString id).length = 40 := by
  have hbyte : ∀ c ∈ id.1.reverse, (hexStr c).length = 2 := fun c _ => rfl
  rw [CKeyID.toString, length_flatMap, map_congr_left hbyte, map_const',
    sum_replicate_nat, length_reverse, id.2]

theorem toString_injective : Function.Injective CKeyID.toString := by
  intro id id' h
  have hreverse := congrArg HexText.parseHex h
  rw [CKeyID.toString, CKeyID.toString, HexText.parseHex_hexStr, HexText.parseHex_hexStr] at hreverse
  exact Subtype.ext (reverse_injective hreverse)

theorem mnpMessage_inj
    (h : mnpMessage straddr collate master = mnpMessage straddr' collate' master') :
    straddr = straddr' ∧ collate = collate' ∧ master = master' := by
  have hrest := append_cancel_right h
  obtain ⟨hfront, hmaster⟩ := append_inj' hrest (by rw [length_toString, length_toString])
  obtain ⟨haddr, hcollate⟩ := append_inj' hfront (by rw [length_toString, length_toString])
  exact ⟨haddr, toString_injective hcollate, toString_injective hmaster⟩

variable {Digest : Type}

def Accepts (S : Signer Digest) (pubkey : PubKey) (vchSig : Bytes) (p : Signed) : Prop :=
  verifyHash S (S.getHash (payload p)) pubkey vchSig = true

/-- Nothing collides for this signature and these two payloads: they do not share a hash, the keys
recovered do not share an id, and no key is recovered for both hashes unless they are equal. -/
structure CollisionFree (S : Signer Digest) (vchSig : Bytes) (p q : Signed) : Prop where
  getHash : S.getHash (payload p) = S.getHash (payload q) → payload p = payload q
  getID : ∀ k k', S.recoverCompact (S.getHash (payload p)) vchSig = some k →
    S.recoverCompact (S.getHash (payload q)) vchSig = some k' → S.getID k = S.getID k' → k = k'
  recover : ∀ k, S.recoverCompact (S.getHash (payload p)) vchSig = some k →
    S.recoverCompact (S.getHash (payload q)) vchSig = some k →
    S.getHash (payload p) = S.getHash (payload q)

theorem verifyHash_iff {S : Signer Digest} {hash : Digest} {pubkey : PubKey} {vchSig : Bytes} :
    verifyHash S hash pubkey vchSig = true ↔
      ∃ k, S.recoverCompact hash vchSig = some k ∧ S.getID k = S.getID pubkey := by
  rw [verifyHash]
  cases S.recoverCompact hash vchSig with
  | none => simp
  | some k => simp

theorem signed_of_signOrThrow (h : signOrThrow S key p = .ok vchSig) :
    S.signCompact key (S.getHash (payload p)) = some vchSig := by
  rw [signOrThrow] at h
  split at h
  · cases h
  · next hsigned =>
      cases h
      exact hsigned

theorem signed_of_madeFor (h : MadeFor S key vchSig p) :
    S.signCompact key (S.getHash (payload p)) = some vchSig := by
  cases h with
  | signhash hkey hsign =>
    rw [signhash, hkey] at hsign
    exact signed_of_signOrThrow hsign
  | signMessage hsign | signMessageAt hsign => exact hsign
  | @signmnpmessage _ _ _ _ _ _ _ _ strMessage hkey hmaster htext hsign =>
    rw [signmnpmessage, hkey] at hsign
    change (getKeysFromSecret S _).bind _ = _ at hsign
    rw [hmaster] at hsign
    obtain ⟨str, hstr⟩ := strMessage
    cases htext
    exact signed_of_signOrThrow ((dif_pos hstr).symm.trans hsign)
  | signlicmessage hmaster hkey hsign =>
    rw [signlicmessage, hmaster, hkey] at hsign
    exact Except.ok.inj hsign

theorem accepts_unique {S : Signer Digest} {pubkey : PubKey} {vchSig : Bytes} {p q : Signed}
    (hfree : CollisionFree S vchSig p q) (hp : Accepts S pubkey vchSig p)
    (hq : Accepts S pubkey vchSig q) : p = q := by
  obtain ⟨k, hk, hid⟩ := verifyHash_iff.mp hp
  obtain ⟨k', hk', hid'⟩ := verifyHash_iff.mp hq
  obtain rfl := hfree.getID k k' hk hk' (hid.trans hid'.symm)
  exact payload_injective (hfree.getHash (hfree.recover k hk hk'))

def Correct (S : Signer Digest) : Prop :=
  ∀ key hash vchSig, S.signCompact key hash = some vchSig →
    S.recoverCompact hash vchSig = some (S.getPubKey key)

theorem accepts_of_madeFor {S : Signer Digest} (hS : Correct S) {key : CKey} {vchSig : Bytes}
    {p : Signed} (h : MadeFor S key vchSig p) : Accepts S (S.getPubKey key) vchSig p :=
  verifyHash_iff.mpr ⟨S.getPubKey key, hS _ _ _ (signed_of_madeFor h), rfl⟩

/-- Different payloads are different bytes. A signature is accepted for what it was made for and,
without a collision, for nothing else. -/
theorem signed_payloads_unambiguous (S : Signer Digest) :
    Function.Injective payload ∧
      (∀ straddr straddr' collate collate' master master',
        mnpMessage straddr collate master = mnpMessage straddr' collate' master' →
          straddr = straddr' ∧ collate = collate' ∧ master = master') ∧
      (Correct S → ∀ key vchSig p, MadeFor S key vchSig p →
        Accepts S (S.getPubKey key) vchSig p ∧
          ∀ q, CollisionFree S vchSig p q → Accepts S (S.getPubKey key) vchSig q → q = p) := by
  refine ⟨payload_injective, fun _ _ _ _ _ _ h => mnpMessage_inj h, ?_⟩
  intro hS key vchSig p hmade
  have hp := accepts_of_madeFor hS hmade
  exact ⟨hp, fun q hfree hq => (accepts_unique hfree hp hq).symm⟩

end

theorem samplePubKey_set : UosAddress.CPubKey.set (samplePubKey 1) = samplePubKey 1 := by
  decide +kernel

def signerPubKey : PubKey := ⟨samplePubKey 1, samplePubKey_set⟩

def ping : string := ⟨[0x70, 0x69, 0x6e, 0x67], by decide⟩

def pingHash : Bytes :=
  beBytes 32 0x0b97a4983c4712abe81a8cc7276d21401816c25d28c242236a9b361f5f12b2ff

/-- What `SignCompact` returns for `pingHash` and the secret 1. -/
def pingSig : Bytes :=
  beBytes 65 0x201fd92f71597ff6b0edd2641945e06752e521d4b9f8a5bbc3aef0f065dd8696db3441a9d587919bdbf9963741b5df0fb0bdf0b29d032636bc2055719c51a51c8a

/-- The hashes of two messages, and the signature of the first one by the secret 1. -/
def tableSigner : Signer Bytes where
  getHash bytes :=
    if bytes = payload (.messageAt ping 1520000000) then pingHash
    else if bytes = payload (.message ping) then
      beBytes 32 0x10d44e83444bcf9c4d1b13d3b5b17057a857035faeece339b8f6c523a32b926c
    else sampleHash bytes
  setString := DumpText.secretSetString PrivKey.seckeyVerify sampleProgram
  getKey _ := .ok none
  getPubKey _ := signerPubKey
  getID _ := ⟨sampleID 1, beBytes_length _ _⟩
  signCompact key hash := if key = sampleKey 1 ∧ hash = pingHash then some pingSig else none
  recoverCompact hash vchSig :=
    if hash = pingHash ∧ vchSig = pingSig then some signerPubKey else none

theorem tableSigner_correct : Correct tableSigner := by
  intro key hash vchSig h
  obtain ⟨⟨-, hhash⟩, hsig⟩ := Option.ite_none_right_eq_some.mp h
  exact if_pos ⟨hhash, (Option.some.inj hsig).symm⟩

theorem signed_payloads_unambiguous_ping :
    (oneKey.fn.Valid (sampleKey 1) ∧ signMessageAt tableSigner ping 1520000000 (sampleKey 1) = some pingSig) ∧
      Accepts tableSigner signerPubKey pingSig (.messageAt ping 1520000000) ∧
      ¬Accepts tableSigner signerPubKey pingSig (.message ping) := by
  have hsign : signMessageAt tableSigner ping 1520000000 (sampleKey 1) = some pingSig := by
    decide +kernel
  obtain ⟨haccepts, hunique⟩ := (signed_payloads_unambiguous tableSigner).2.2 tableSigner_correct
    (sampleKey 1) pingSig _ (.signMessageAt hsign)
  have hfree : CollisionFree tableSigner pingSig (.messageAt ping 1520000000) (.message ping) := by
    have hnone : tableSigner.recoverCompact (tableSigner.getHash (payload (.message ping))) pingSig =
        none := by decide +kernel
    refine ⟨fun h => absurd h (by decide +kernel), fun _ _ _ h => ?_, fun _ _ h => ?_⟩
    all_goals
      rw [hnone] at h
      cases h
  refine ⟨⟨sampleKey_valid, hsign⟩, haccepts, fun hmessage => ?_⟩
  cases hunique _ hfree hmessage

end Utsuite.SignedPayload
