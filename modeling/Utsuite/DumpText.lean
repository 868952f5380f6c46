import Utsuite.Base58Codec
import Utsuite.WalletFile

namespace Utsuite.DumpText

open ByteWords Base58 Base58Codec Wallet WalletFile List

/-- What the texts of a dump depend on: the hash of Base58Check, the version bytes of `Params()`,
the two functions for times and the texts of the build. -/
structure Program where
  hash : Hash256
  secretKey : UInt8
  pubkeyAddress : UInt8
  encodeDumpTime : Int → Bytes
  decodeDumpTime : Bytes → Int
  clientBuild : Bytes
  clientDate : Bytes

def hexmap : Bytes :=
  ascii ['0', '1', '2', '3', '4', '5', '6', '7', '8', '9', 'a', 'b', 'c', 'd', 'e', 'f']

def hexStr (c : UInt8) : Bytes :=
  [hexmap.getD (c >>> 4).toNat 0, hexmap.getD (c &&& 15).toNat 0]

def encodeDumpString (str : Bytes) : Bytes :=
  str.flatMap fun c => if c ≤ 32 ∨ c ≥ 128 ∨ c = 0x25 then 0x25 :: hexStr c else [c]

def hexValue (x : UInt8) : UInt8 := (x.toInt8 >>> 6).toUInt8 * 9 + ((x - 0x30) &&& 15)

def decodeDumpString : Bytes → Bytes
  | [] => []
  | [c] => [c]
  | [c, d] => [c, d]
  | c :: x :: y :: str =>
    if c = 0x25 then (hexValue x <<< 4 ||| hexValue y) :: decodeDumpString str
    else c :: decodeDumpString (x :: y :: str)

def setKey (P : Program) (key : CKey) : CBase58Data :=
  ⟨[P.secretKey], key.vch ++ if key.fCompressed then [1] else []⟩

def getKey (check : Bytes → Bool) (data : CBase58Data) : Option CKey :=
  if check (data.vchData.take 32) then
    some ⟨decide (data.vchData.length > 32) && data.vchData.getD 32 0 == 1, data.vchData.take 32⟩
  else none

def isValid (P : Program) (data : CBase58Data) : Bool :=
  (data.vchData.length == 32 || (data.vchData.length == 33 && data.vchData.getD 32 0 == 1)) &&
    data.vchVersion == [P.secretKey]

def secretSetString (check : Bytes → Bool) (P : Program) (str : Bytes) : Option (Option CKey) :=
  match CBase58Data.setString P.hash str with
  | .error _ => none
  | .ok data => if isValid P data then some (getKey check data) else none

theorem valid_of_secretSetString (fn : KeyFunctions) (P : Program) (str : Bytes) (key : CKey)
    (h : secretSetString fn.check P str = some (some key)) : fn.Valid key := by
  rw [secretSetString] at h
  split at h
  case h_1 => cases h
  case h_2 data hdata =>
    split_ifs at h with hvalid
    have hkey := Option.some.inj h
    rw [getKey] at hkey
    split_ifs at hkey with hcheck
    cases hkey
    refine ⟨?_, hcheck⟩
    rw [isValid, Bool.and_eq_true, Bool.or_eq_true, Bool.and_eq_true] at hvalid
    simp only [beq_iff_eq] at hvalid
    rw [List.length_take]
    omega

def dumpHeader (P : Program) : Bytes :=
  ascii ['#', ' ', 'W', 'a', 'l', 'l', 'e', 't', ' ', 'd', 'u', 'm', 'p', ' ', 'c', 'r', 'e', 'a',
      't', 'e', 'd', ' ', 'b', 'y', ' ', 'U', 'l', 'o', 'r', 'd', ' ', 'C', 'o', 'r', 'e', ' '] ++
    P.clientBuild ++ ascii [' ', '('] ++ P.clientDate ++ ascii [')']

/-- The functions on texts that the wallet file needs. Keys and identifiers are short, so `ToString`
has a result for each of them. -/
def textFunctions (fn : KeyFunctions) (P : Program) : TextFunctions fn where
  setString := secretSetString fn.check P
  setString_valid := valid_of_secretSetString fn P
  secretToString key := ((setKey P key).toString P.hash).toOption.getD []
  addressToString keyid :=
    (CBase58Data.toString P.hash ⟨[P.pubkeyAddress], keyid⟩).toOption.getD []
  decodeDumpTime := P.decodeDumpTime
  encodeDumpTime := P.encodeDumpTime
  decodeDumpString := decodeDumpString
  encodeDumpString := encodeDumpString
  dumpHeader := dumpHeader P

def fileText (lines : List Bytes) : Bytes := lines.flatMap fun line => line ++ [0x0a]

def readLines (text : Bytes) : List Bytes := text.splitOn 0x0a

theorem readLines_fileText (h : ∀ line ∈ lines, 0x0a ∉ line) :
    readLines (fileText lines) = lines ++ [[]] := by
  induction lines with
  | nil => rfl
  | cons line lines ih =>
    have hsplit : fileText (line :: lines) = line ++ 0x0a :: fileText lines := by
      simp [fileText]
    rw [hsplit, readLines, splitOn_append_cons_self_of_not_mem (h line mem_cons_self)]
    exact congrArg _ (ih fun l hl => h l (mem_cons_of_mem _ hl))

theorem hexValue_hexStr (c : UInt8) :
    ∃ x y, hexStr c = [x, y] ∧ hexValue x <<< 4 ||| hexValue y = c := by
  refine ⟨_, _, rfl, ?_⟩
  exact byte_cases (p := fun c => hexValue (hexmap.getD (c >>> 4).toNat 0) <<< 4 |||
    hexValue (hexmap.getD (c &&& 15).toNat 0) = c) (by decide +kernel) c

theorem decodeDumpString_cons (hc : c ≠ 0x25) (str : Bytes) :
    decodeDumpString (c :: str) = c :: decodeDumpString str := by
  match str with
  | [] => rfl
  | [x] => rfl
  | x :: y :: str => rw [decodeDumpString, if_neg hc]

theorem decodeDumpString_encodeDumpString (str : Bytes) :
    decodeDumpString (encodeDumpString str) = str := by
  induction str with
  | nil => rfl
  | cons c str ih =>
    rw [encodeDumpString, flatMap_cons, ← encodeDumpString]
    by_cases hspecial : c ≤ 32 ∨ c ≥ 128 ∨ c = 0x25
    · obtain ⟨x, y, hhex, hvalue⟩ := hexValue_hexStr c
      rw [if_pos hspecial, hhex]
      change decodeDumpString (0x25 :: x :: y :: encodeDumpString str) = _
      rw [decodeDumpString, if_pos rfl, hvalue, ih]
    · rw [if_neg hspecial, singleton_append,
        decodeDumpString_cons fun heq => hspecial (Or.inr (Or.inr heq)), ih]

theorem hexmap_graphic : ∀ n, n < 16 → 32 < hexmap.getD n 0 := by decide

theorem encodeDumpString_graphic (str : Bytes) : ∀ c ∈ encodeDumpString str, 32 < c := by
  intro c hc
  obtain ⟨b, -, hb⟩ := List.mem_flatMap.mp hc
  by_cases hspecial : b ≤ 32 ∨ b ≥ 128 ∨ b = 0x25
  · rw [if_pos hspecial] at hb
    have hhigh : (b >>> 4).toNat < 16 := by
      have := b.toNat_lt
      rw [UInt8.toNat_shiftRight]
      simp
      omega
    have hlow : (b &&& 15).toNat < 16 := by
      rw [UInt8.toNat_and]
      exact Nat.and_lt_two_pow (n := 4) _ (by decide)
    simp only [hexStr, mem_cons, not_mem_nil, or_false] at hb
    obtain rfl | rfl | rfl := hb
    · decide
    · exact hexmap_graphic _ hhigh
    · exact hexmap_graphic _ hlow
  · rw [if_neg hspecial, mem_singleton] at hb
    subst hb
    exact UInt8.not_le.mp fun hle => hspecial (Or.inl hle)

variable {fn : KeyFunctions} {P : Program}

theorem isValid_setKey (h : fn.Valid key) : isValid P (setKey P key) = true := by
  obtain ⟨hlen, -⟩ := h
  cases hc : key.fCompressed <;> simp [isValid, setKey, hc, hlen]

theorem getKey_setKey (h : fn.Valid key) : getKey fn.check (setKey P key) = some key := by
  obtain ⟨hlen, hcheck⟩ := h
  have htake : (setKey P key).vchData.take 32 = key.vch := by
    rw [setKey, ← hlen]
    exact take_left
  rw [getKey, htake, if_pos hcheck]
  rcases key with ⟨fCompressed, vch⟩
  cases fCompressed <;> simp [setKey, hlen]

theorem toString_alphabet (hash : Hash256) (data : CBase58Data) :
    ∀ c ∈ (data.toString hash).toOption.getD [], c ∈ pszBase58 := by
  intro c hc
  cases htext : data.toString hash with
  | error fault =>
    rw [htext] at hc
    exact absurd hc not_mem_nil
  | ok str =>
    obtain ⟨-, rfl⟩ := encodeBase58_ok_iff.mp htext
    rw [htext] at hc
    exact base58_alphabet _ c hc

theorem secretToString_alphabet (fn : KeyFunctions) (P : Program) (key : CKey) :
    ∀ c ∈ (textFunctions fn P).secretToString key, c ∈ pszBase58 :=
  toString_alphabet P.hash (setKey P key)

theorem addressToString_alphabet (fn : KeyFunctions) (P : Program) (keyid : CKeyID) :
    ∀ c ∈ (textFunctions fn P).addressToString keyid, c ∈ pszBase58 :=
  toString_alphabet P.hash ⟨[P.pubkeyAddress], keyid⟩

theorem setString_secretToString (h : fn.Valid key) :
    (textFunctions fn P).setString ((textFunctions fn P).secretToString key) = some (some key) := by
  have hlen : (setKey P key).vchData.length ≤ 33 := by
    rw [setKey, length_append, h.1]
    split_ifs <;> simp
  obtain ⟨str, htext, hread, -⟩ :=
    setString_toString P.hash P.secretKey (setKey P key).vchData (by omega)
  have hstr : (textFunctions fn P).secretToString key = str :=
    congrArg (fun r : Except Fault Bytes => r.toOption.getD []) htext
  rw [hstr]
  change secretSetString fn.check P str = _
  rw [secretSetString, hread]
  change (if isValid P (setKey P key) then some (getKey fn.check (setKey P key)) else none) = _
  rw [if_pos (isValid_setKey h), getKey_setKey h]

end Utsuite.DumpText
