import Utsuite.Base58Codec
import Utsuite.Wallet

namespace Utsuite.KeyCode

open ByteWords Base58 Base58Codec List
open Wallet (CKey CPubKey)

structure Chain where
  hash : Hash256
  secretKey : UInt8
  pubkeyAddress : UInt8
  check : Bytes → Bool
  getPubKey : CKey → CPubKey
  getID : CPubKey → {id : Bytes // id.length = 20}

def CODE_WORD : UInt8 := 170

inductive Thrown
  | minusOne
  | assertion
  | base58 (fault : Fault)
  deriving DecidableEq

structure CKeyCode where
  vchVersion : Bytes
  vchData : Bytes
  pubkey_ : CPubKey
  address_ : Bytes
  deriving DecidableEq

variable (C : Chain)

def ValidKey (key : CKey) : Prop := key.vch.length = 32 ∧ C.check key.vch = true

def addressOf (pubkey : CPubKey) : Except Thrown Bytes :=
  match encodeBase58Check C.hash (C.pubkeyAddress :: (C.getID pubkey).1) with
  | .error fault => .error (.base58 fault)
  | .ok str => .ok str

/-- A code for a key, which has to be valid because `GetPubKey` asserts it. -/
def withPubKey (vchVersion vchData : Bytes) : Option CKey → Except Thrown CKeyCode
  | none => .error .assertion
  | some key => (addressOf C (C.getPubKey key)).map fun address_ =>
    ⟨vchVersion, vchData, C.getPubKey key, address_⟩

def ofKey : Option CKey → Except Thrown CKeyCode
  | none => .error .minusOne
  | some key =>
    withPubKey C [C.secretKey] (key.vch ++ if key.fCompressed then [1] else []) (some key)

def CKeyCode.encode (code : CKeyCode) : Except Thrown Bytes :=
  match encodeBase58Check C.hash ((code.vchVersion ++ code.vchData).map (· ^^^ CODE_WORD)) with
  | .error fault => .error (.base58 fault)
  | .ok str => .ok str

/-- The key in the data of a code. `none` stands for a key that is not valid. -/
def getKeyOf (vchData : Bytes) : Except Thrown (Option CKey) :=
  if vchData.length < 32 then .error .minusOne
  else if C.check (vchData.take 32) then
    .ok (some ⟨decide (vchData.length > 32) && vchData.getD 32 0 == 1, vchData.take 32⟩)
  else .ok none

def CKeyCode.getKey (code : CKeyCode) : Except Thrown (Option CKey) := getKeyOf C code.vchData

def isValid (vchVersion vchData : Bytes) : Bool :=
  (vchData.length == 32 || (vchData.length == 33 && vchData.getD 32 0 == 1)) &&
    vchVersion == [C.secretKey]

def ofString (nVersionBytes : Nat) (strPrivkey : Bytes) : Except Thrown CKeyCode :=
  match decodeBase58Check C.hash strPrivkey with
  | .error .rejected => .error .minusOne
  | .error fault => .error (.base58 fault)
  | .ok vchTemp =>
    if vchTemp.length < nVersionBytes then .error .minusOne
    else
      let vchTemp := vchTemp.map (· ^^^ CODE_WORD)
      let vchVersion := vchTemp.take nVersionBytes
      let vchData := vchTemp.drop nVersionBytes
      if !isValid C vchVersion vchData then .error .minusOne
      else match getKeyOf C vchData with
        | .error e => .error e
        | .ok key => withPubKey C vchVersion vchData key

variable {C}

theorem unmask (vch : Bytes) : (vch.map (· ^^^ CODE_WORD)).map (· ^^^ CODE_WORD) = vch := by
  rw [map_map]
  refine (map_congr_left fun c _ => ?_).trans (map_id vch)
  rw [Function.comp_apply, UInt8.xor_assoc, UInt8.xor_self, UInt8.xor_zero, id_eq]

theorem addressOf_ok (pubkey : CPubKey) : ∃ str, addressOf C pubkey = .ok str := by
  have hlen : (C.pubkeyAddress :: (C.getID pubkey).1).length = 21 := by
    rw [length_cons, (C.getID pubkey).2]
  obtain ⟨str, hencode, -, -⟩ := decode_encodeBase58Check C.hash
    (C.pubkeyAddress :: (C.getID pubkey).1) (by rw [hlen]; decide)
  exact ⟨str, by rw [addressOf, hencode]⟩

theorem withPubKey_ok (vchVersion vchData : Bytes) (key : CKey) :
    ∃ code, withPubKey C vchVersion vchData (some key) = .ok code ∧
      code.vchVersion = vchVersion ∧ code.vchData = vchData := by
  obtain ⟨str, haddress⟩ := addressOf_ok (C := C) (C.getPubKey key)
  exact ⟨_, by rw [withPubKey, haddress]; rfl, rfl, rfl⟩

theorem of_withPubKey (h : withPubKey C vchVersion vchData key = .ok code) :
    code.vchVersion = vchVersion ∧ code.vchData = vchData := by
  cases key with
  | none => cases h
  | some key =>
    obtain ⟨code', hok, hversion, hdata⟩ := withPubKey_ok (C := C) vchVersion vchData key
    rw [hok] at h
    cases h
    exact ⟨hversion, hdata⟩

theorem getKeyOf_key (hkey : ValidKey C key)
    (hdata : vchData = key.vch ++ if key.fCompressed then [1] else []) :
    isValid C [C.secretKey] vchData = true ∧ getKeyOf C vchData = .ok (some key) := by
  obtain ⟨hlen, hcheck⟩ := hkey
  obtain ⟨fCompressed, vch⟩ := key
  dsimp only at hlen hcheck hdata
  have hget : (vch ++ [1]).getD 32 0 = 1 := by
    rw [getD_eq_getElem?_getD, getElem?_append_right (by omega), hlen]
    rfl
  cases fCompressed with
  | false =>
    rw [if_neg Bool.false_ne_true, append_nil] at hdata
    subst hdata
    have htake : vchData.take 32 = vchData := take_of_length_le (by omega)
    refine ⟨by simp [isValid, hlen], ?_⟩
    rw [getKeyOf, if_neg (by omega), htake, if_pos hcheck]
    simp [hlen]
  | true =>
    rw [if_pos rfl] at hdata
    subst hdata
    have hlen' : (vch ++ [1]).length = 33 := by rw [length_append, hlen]; rfl
    have htake : (vch ++ [1]).take 32 = vch := take_left' hlen
    refine ⟨by simp only [isValid, hlen', hget]; simp, ?_⟩
    rw [getKeyOf, if_neg (by omega), htake, if_pos hcheck, hget, hlen']
    rfl

theorem ofString_encode (hkey : ValidKey C key) :
    ∃ code str code', ofKey C (some key) = .ok code ∧ code.encode C = .ok str ∧
      ofString C 1 str = .ok code' ∧ code'.getKey C = .ok (some key) := by
  generalize hdata : (key.vch ++ if key.fCompressed then [1] else []) = vchData
  obtain ⟨hvalid, hget⟩ := getKeyOf_key hkey hdata.symm
  obtain ⟨code, hcode, hversion, hcodeData⟩ := withPubKey_ok (C := C) [C.secretKey] vchData key
  have hlen : ((C.secretKey :: vchData).map (· ^^^ CODE_WORD)).length ≤ 34 := by
    rw [length_map, length_cons, ← hdata, length_append, hkey.1]
    split_ifs <;> simp
  obtain ⟨str, hencode, hdecode, -⟩ := decode_encodeBase58Check C.hash
    ((C.secretKey :: vchData).map (· ^^^ CODE_WORD)) (by omega)
  refine ⟨code, str, code, ?_, ?_, ?_, ?_⟩
  · rw [ofKey, hdata, hcode]
  · rw [CKeyCode.encode, hversion, hcodeData, singleton_append, hencode]
  · rw [ofString, hdecode]
    dsimp only
    rw [unmask, length_map, length_cons, if_neg (by omega), take_succ_cons,
      take_zero, drop_succ_cons, drop_zero, hvalid, hget]
    exact hcode
  · rw [CKeyCode.getKey, hcodeData, hget]

theorem encode_ofString (h : ofString C 1 s = .ok code) :
    ∃ lead word rest, cString s = lead ++ (word ++ rest) ∧ (∀ c ∈ lead, isspace c = true) ∧
      (∀ c ∈ word, c ∈ pszBase58) ∧ (∀ c ∈ rest, isspace c = true) ∧
      code.encode C = .ok word := by
  rw [ofString] at h
  split at h
  · cases h
  · cases h
  · next vchTemp hdecode =>
      dsimp only at h
      split_ifs at h with hshort hvalid
      split at h
      · cases h
      · obtain ⟨hversion, hdata⟩ := of_withPubKey h
        have hsize : vchTemp.length ≤ 34 := by
          rw [Bool.not_eq_true', Bool.not_eq_false, isValid, Bool.and_eq_true, Bool.or_eq_true,
            Bool.and_eq_true, beq_iff_eq, beq_iff_eq, length_drop, length_map] at hvalid
          omega
        obtain ⟨lead, word, rest, hstr, hlead, hword, hrest, hencode⟩ :=
          encode_decodeBase58Check hdecode (by omega)
        refine ⟨lead, word, rest, hstr, hlead, hword, hrest, ?_⟩
        rw [CKeyCode.encode, hversion, hdata, take_append_drop, unmask, hencode]

theorem not_zero_of_isspace (h : isspace c = true) : c ≠ 0 := by
  rintro rfl
  exact absurd h (by decide)

theorem given_back_iff (h : ofString C 1 s = .ok code) :
    (∃ str lead rest, code.encode C = .ok str ∧ s = lead ++ (str ++ rest) ∧
      (∀ c ∈ lead, isspace c = true) ∧ ∀ c ∈ rest, isspace c = true) ↔ 0 ∉ s := by
  obtain ⟨lead, word, rest, hstr, hlead, hword, hrest, hencode⟩ := encode_ofString h
  constructor
  · rintro ⟨str, lead', rest', hencode', hs, hlead', hrest'⟩ hzero
    rw [hencode] at hencode'
    cases hencode'
    rw [hs, mem_append, mem_append] at hzero
    rcases hzero with hzero | hzero | hzero
    · exact not_zero_of_isspace (hlead' _ hzero) rfl
    · exact (not_special _ (hword _ hzero)).1 rfl
    · exact not_zero_of_isspace (hrest' _ hzero) rfl
  · intro hzero
    have hall : cString s = s := by
      rw [cString, takeWhile_eq_self_iff]
      intro c hc
      exact decide_eq_true fun hc0 => hzero (hc0 ▸ hc)
    rw [hall] at hstr
    exact ⟨word, lead, rest, hencode, hstr, hlead, hrest⟩

/-- Keys survive the round trip through their text. A text that is accepted comes back, up to white
space around it, exactly if it has no zero byte. -/
theorem keyCode_round_trip_iff (C : Chain) :
    (∀ key, ValidKey C key →
      ∃ code str code', ofKey C (some key) = .ok code ∧ code.encode C = .ok str ∧
        ofString C 1 str = .ok code' ∧ code'.getKey C = .ok (some key)) ∧
    ∀ s code, ofString C 1 s = .ok code →
      ((∃ str lead rest, code.encode C = .ok str ∧ s = lead ++ (str ++ rest) ∧
        (∀ c ∈ lead, isspace c = true) ∧ ∀ c ∈ rest, isspace c = true) ↔ 0 ∉ s) :=
  ⟨fun _ hkey => ofString_encode hkey, fun _ _ h => given_back_iff h⟩

def constantChain : Chain where
  hash _ := zeroBytes 32
  secretKey := 128
  pubkeyAddress := 68
  check vch := decide (0 < beValue vch ∧
    beValue vch < 0xfffffffffffffffffffffffffffffffebaaedce6af48a03bbfd25e8cd0364141)
  getPubKey key := 2 :: key.vch
  getID _ := zeroBytes 20

def keyOne : CKey := ⟨true, List.replicate 31 0 ++ [1]⟩

def keyOneText : Bytes :=
  ['7', 'K', '5', 'E', 'j', 'D', 'i', '3', 'o', 'Z', 'R', 'X', 'u', 'k', 'E', 'S', 'b',
    'Z', 'q', 'm', 'd', 'm', '3', '7', 'c', 's', 'a', 'A', 'c', 'r', 'a', '1', 'w', 'r',
    'F', 'E', 'D', '3', 'n', 'N', 'c', 'k', 'V', 'N', 'M', 'd', '5', 'H', 'A', 'n', 'k', '7'].map Char.toUInt8

theorem keyCode_round_trip_keyOne :
    (∃ code str code', ofKey constantChain (some keyOne) = .ok code ∧
      code.encode constantChain = .ok str ∧ ofString constantChain 1 str = .ok code' ∧
      code'.getKey constantChain = .ok (some keyOne)) ∧
    ∃ code, ofString constantChain 1 keyOneText = .ok code ∧
      ((∃ str lead rest, code.encode constantChain = .ok str ∧ keyOneText = lead ++ (str ++ rest) ∧
        (∀ c ∈ lead, isspace c = true) ∧ ∀ c ∈ rest, isspace c = true) ↔ 0 ∉ keyOneText) := by
  have hread : ofString constantChain 1 keyOneText = ofKey constantChain (some keyOne) := by
    decide +kernel
  obtain ⟨code, hcode, -, -⟩ := withPubKey_ok (C := constantChain) [128] (keyOne.vch ++ [1]) keyOne
  replace hcode := hread.trans hcode
  exact ⟨(keyCode_round_trip_iff constantChain).1 keyOne (by constructor <;> decide +kernel),
    code, hcode, (keyCode_round_trip_iff constantChain).2 keyOneText code hcode⟩

/-- A zero byte and a letter behind it are accepted, but they do not come back. -/
theorem zero_byte_not_given_back :
    ∃ code, ofString constantChain 1 (keyOneText ++ [0x00, 0x41]) = .ok code ∧
      ¬∃ str lead rest, code.encode constantChain = .ok str ∧
        keyOneText ++ [0x00, 0x41] = lead ++ (str ++ rest) ∧
        (∀ c ∈ lead, isspace c = true) ∧ ∀ c ∈ rest, isspace c = true := by
  have hread : ofString constantChain 1 (keyOneText ++ [0x00, 0x41]) =
      ofKey constantChain (some keyOne) := by decide +kernel
  obtain ⟨code, hcode, -, -⟩ := withPubKey_ok (C := constantChain) [128] (keyOne.vch ++ [1]) keyOne
  replace hcode := hread.trans hcode
  refine ⟨code, hcode, fun hback => (given_back_iff hcode).mp hback ?_⟩
  exact mem_append_right _ mem_cons_self

end Utsuite.KeyCode
