import Utsuite.HexText
import Utsuite.KeyCode

namespace Utsuite.UosAddress

open ByteWords Base58 Base58Codec HexText List KeyCode
open DumpText (hexStr)
open KeyCode (Chain addressOf)
open Wallet (CPubKey)

def find (text : Bytes) : Bytes → Option Nat
  | [] => if text.isPrefixOf [] then some 0 else none
  | c :: str => if text.isPrefixOf (c :: str) then some 0 else (find text str).map (· + 1)

def UOS : Bytes := ['U', 'O', 'S'].map Char.toUInt8

def pubkeyError : Bytes :=
  ['p', 'u', 'b', 'k', 'e', 'y', ' ', 'e', 'r', 'r', 'o', 'r'].map Char.toUInt8

/-- How a call ends without a text. `outOfRange` is a read beyond the end of a vector. -/
inductive Stop
  | outOfRange
  | base58 (fault : Fault)
  | address (e : KeyCode.Thrown)
  deriving DecidableEq

def getLen (chHeader : UInt8) : Nat :=
  if chHeader = 2 ∨ chHeader = 3 then 33
  else if chHeader = 4 ∨ chHeader = 6 ∨ chHeader = 7 then 65
  else 0

/-- `Set` from `begin()` to `end()`, where an invalid key is one without bytes. -/
def CPubKey.set (vch : Bytes) : CPubKey :=
  let len := match vch with
    | [] => 0
    | chHeader :: _ => getLen chHeader
  if len ≠ 0 ∧ len = vch.length then vch else []

variable (C : Chain)

def bytesAddress (vchIn : Bytes) : Except Stop Bytes :=
  match vchIn with
  | [] => .error .outOfRange
  | chHeader :: _ =>
    let len := getLen chHeader
    if vchIn.length < len then .error .outOfRange
    else match addressOf C (CPubKey.set (vchIn.take len)) with
      | .error e => .error (.address e)
      | .ok addr => .ok addr

mutual

/-- The functions call one another, so there is a bound. `none` is a call that is deeper. -/
def transutaddr : Nat → Bytes → Option (Except Stop Bytes)
  | 0, _ => none
  | depth + 1, uoshex =>
    if (find UOS uoshex).isSome then transfromuosb58 depth uoshex
    else some (bytesAddress C (parseHex (cString uoshex)))

def transfromuosb58 : Nat → Bytes → Option (Except Stop Bytes)
  | 0, _ => none
  | depth + 1, uos58 =>
    if find UOS uos58 ≠ some 0 then some (.ok pubkeyError)
    else
      -- the result of `DecodeBase58` is not looked at, and `vchIn2` is left empty
      match decodeBase58 (cString (uos58.drop 3)) with
      | .error .rejected => transutaddr depth []
      | .error fault => some (.error (.base58 fault))
      | .ok vchIn2 => transutaddr depth (vchIn2.flatMap hexStr)

end

def decodedBytes (uoshex : Bytes) : Option Bytes :=
  match find UOS uoshex with
  | none => some (parseHex (cString uoshex))
  | some 0 =>
    match decodeBase58 (cString (uoshex.drop 3)) with
    | .error .rejected => some []
    | .error _ => none
    | .ok vchIn2 => some vchIn2
  | some _ => none

def StartsWithKey (vch : Bytes) : Prop :=
  ∃ chHeader, vch.head? = some chHeader ∧ getLen chHeader ≠ 0 ∧ getLen chHeader ≤ vch.length

theorem find_eq_none (h : 0x55 ∉ str) : find UOS str = none := by
  induction str with
  | nil => rfl
  | cons c str ih =>
    rw [mem_cons, not_or] at h
    obtain ⟨hc, hstr⟩ := h
    have hprefix : UOS.isPrefixOf (c :: str) = false := by
      rw [UOS, map_cons, isPrefixOf_cons_cons, Bool.and_eq_false_iff]
      exact .inl (beq_false_of_ne hc)
    rw [find, hprefix, ih hstr]
    rfl

theorem find_front (str : Bytes) : find UOS (UOS ++ str) = some 0 := rfl

theorem hexStr_plain (c : UInt8) : ∀ b ∈ hexStr c, b ≠ 0 ∧ b ≠ 0x55 := by
  have hall : ((hexStr c).all fun b => b ≠ 0 ∧ b ≠ 0x55) = true :=
    byte_cases (p := fun c => ((hexStr c).all fun b => b ≠ 0 ∧ b ≠ 0x55) = true) (by decide +kernel) c
  intro b hb
  exact of_decide_eq_true (all_eq_true.mp hall b hb)

theorem find_hex (vch : Bytes) : find UOS (vch.flatMap hexStr) = none := by
  refine find_eq_none fun hmem => ?_
  obtain ⟨c, -, hc⟩ := mem_flatMap.mp hmem
  exact (hexStr_plain c _ hc).2 rfl

theorem cString_hex (vch : Bytes) : cString (vch.flatMap hexStr) = vch.flatMap hexStr := by
  rw [cString, takeWhile_eq_self_iff]
  intro b hb
  obtain ⟨c, -, hc⟩ := mem_flatMap.mp hb
  exact decide_eq_true (hexStr_plain c b hc).1

section

variable {C}

theorem transutaddr_hex (depth : Nat) (vch : Bytes) :
    transutaddr C (depth + 1) (vch.flatMap hexStr) = some (bytesAddress C vch) := by
  rw [transutaddr, find_hex, cString_hex, parseHex_hexStr]
  rfl

theorem transutaddr_decoded (depth : Nat) (h : decodedBytes s = some vch) :
    transutaddr C (depth + 3) s = some (bytesAddress C vch) := by
  rw [decodedBytes] at h
  split at h
  · next hfind =>
      rw [transutaddr, hfind]
      cases h
      rfl
  · next hfind =>
      rw [transutaddr, hfind, Option.isSome_some, if_pos rfl, transfromuosb58, hfind,
        if_neg (fun hne => hne rfl)]
      split at h
      · next hdecode =>
          cases h
          exact transutaddr_hex depth []
      · cases h
      · next vchIn2 hdecode =>
          cases h
          exact transutaddr_hex depth _
  · cases h

theorem transutaddr_inside (depth : Nat) (h : find UOS s = some (n + 1)) :
    transutaddr C (depth + 3) s = some (.ok pubkeyError) := by
  rw [transutaddr, h, Option.isSome_some, if_pos rfl, transfromuosb58, h, if_pos (by simp)]

theorem decodedBytes_of_ok (h : transutaddr C (depth + 3) s = some (.ok str)) :
    (∃ n, find UOS s = some (n + 1)) ∨
      ∃ vch, decodedBytes s = some vch ∧ bytesAddress C vch = .ok str := by
  cases hdecoded : decodedBytes s with
  | some vch =>
    rw [transutaddr_decoded depth hdecoded] at h
    exact Or.inr ⟨vch, rfl, Option.some.inj h⟩
  | none =>
    rw [decodedBytes] at hdecoded
    split at hdecoded
    · cases hdecoded
    · next hfind =>
        split at hdecoded
        · cases hdecoded
        · next fault hrejected hdecode =>
            -- running out of room in an `int` ends the call without a string
            rw [transutaddr, hfind, Option.isSome_some, if_pos rfl, transfromuosb58, hfind,
              if_neg (fun hne => hne rfl), hdecode] at h
            cases fault with
            | rejected => exact absurd rfl hrejected
            | assertion | overflow | length_error => cases h
        · cases hdecoded
    · next n hne hfind =>
        obtain ⟨m, rfl⟩ := Nat.exists_eq_succ_of_ne_zero hne
        exact .inl ⟨m, hfind⟩

theorem set_take (hne : getLen chHeader ≠ 0) (hle : getLen chHeader ≤ (chHeader :: vch).length) :
    CPubKey.set ((chHeader :: vch).take (getLen chHeader)) = (chHeader :: vch).take (getLen chHeader) := by
  have hlen : ((chHeader :: vch).take (getLen chHeader)).length = getLen chHeader :=
    length_take_of_le hle
  have hcons : (chHeader :: vch).take (getLen chHeader) = chHeader :: vch.take (getLen chHeader - 1) := by
    conv_lhs => rw [← Nat.succ_pred_eq_of_ne_zero hne, take_succ_cons]
    rfl
  rw [hcons] at hlen ⊢
  exact if_pos ⟨hne, hlen.symm⟩

theorem bytesAddress_key (hhead : vch.head? = some chHeader) (hne : getLen chHeader ≠ 0)
    (hle : getLen chHeader ≤ vch.length) :
    ∃ addr, addressOf C (vch.take (getLen chHeader)) = .ok addr ∧
      bytesAddress C vch = .ok addr := by
  cases vch with
  | nil => cases hhead
  | cons c vch =>
    cases hhead
    obtain ⟨addr, haddr⟩ := addressOf_ok (C := C) ((chHeader :: vch).take (getLen chHeader))
    refine ⟨addr, haddr, ?_⟩
    rw [bytesAddress, if_neg (not_lt.mpr hle), set_take hne hle, haddr]

theorem bytesAddress_other (h : ¬StartsWithKey vch) :
    bytesAddress C vch = .error .outOfRange ∨
      ∃ addr, addressOf C [] = .ok addr ∧ bytesAddress C vch = .ok addr := by
  cases vch with
  | nil => exact .inl rfl
  | cons chHeader vch =>
    by_cases hne : getLen chHeader = 0
    · obtain ⟨addr, haddr⟩ := addressOf_ok (C := C) []
      refine .inr ⟨addr, haddr, ?_⟩
      have hset : CPubKey.set [] = [] := rfl
      rw [bytesAddress, hne, if_neg (Nat.not_lt_zero _), take_zero, hset, haddr]
    · have hshort : (chHeader :: vch).length < getLen chHeader :=
        not_le.mp fun hle => h ⟨chHeader, rfl, hne, hle⟩
      exact .inl (by rw [bytesAddress, if_pos hshort])

theorem addressOf_ne_pubkeyError (h : addressOf C pubkey = .ok addr) : addr ≠ pubkeyError := by
  rintro rfl
  have hlen : (C.pubkeyAddress :: (C.getID pubkey).1).length = 21 := by
    rw [length_cons, (C.getID pubkey).2]
  obtain ⟨str, hencode, -, halphabet⟩ := decode_encodeBase58Check C.hash
    (C.pubkeyAddress :: (C.getID pubkey).1) (by rw [hlen]; decide)
  rw [addressOf, hencode] at h
  cases h
  exact absurd (halphabet 0x20 (by decide)) (by decide)

end

section

variable {C}

def WellFormedKey (pk : Bytes) : Prop :=
  (pk.length = 33 ∧ (pk.head? = some 2 ∨ pk.head? = some 3)) ∨
    (pk.length = 65 ∧ (pk.head? = some 4 ∨ pk.head? = some 6 ∨ pk.head? = some 7))

theorem getLen_of_wellFormed (h : WellFormedKey pk) :
    ∃ chHeader, pk.head? = some chHeader ∧ chHeader ≠ 0 ∧ getLen chHeader ≠ 0 ∧
      getLen chHeader = pk.length := by
  rcases h with ⟨hlen, hhead | hhead⟩ | ⟨hlen, hhead | hhead | hhead⟩ <;>
    exact ⟨_, hhead, by decide, by decide, by rw [hlen]; decide⟩

theorem bytesAddress_append (h : WellFormedKey pk) (haddr : addressOf C pk = .ok addr)
    (suffix : Bytes) : bytesAddress C (pk ++ suffix) = .ok addr := by
  obtain ⟨chHeader, hhead, -, hne, hlen⟩ := getLen_of_wellFormed h
  have hhead' : (pk ++ suffix).head? = some chHeader := by
    rw [head?_append, hhead]
    rfl
  obtain ⟨addr', haddr', hbytes⟩ := bytesAddress_key (C := C) hhead' hne (by
    rw [hlen, length_append]
    exact Nat.le_add_right _ _)
  rw [hlen, take_left, haddr] at haddr'
  cases haddr'
  exact hbytes

theorem decodedBytes_base58 (hhead : vch.head? = some c) (hc : c ≠ 0) :
    decodedBytes (UOS ++ base58 vch) = some vch := by
  have hdrop : (UOS ++ base58 vch).drop 3 = base58 vch := rfl
  have hzeroes : (vch.takeWhile fun c => c = 0) = [] := by
    obtain ⟨rest, rfl⟩ := head?_eq_some_iff.mp hhead
    rw [takeWhile_cons, decide_eq_false hc]
    rfl
  have hread : decodeBase58 (base58 vch) = .ok vch :=
    decodeBase58_base58 (by rw [hzeroes]; decide)
  rw [decodedBytes, find_front, hdrop, cString_of_alphabet (base58_alphabet vch), hread]
  rfl

/-- A public key in hexadecimal or as Base58 text behind `UOS`, alone or followed by further bytes,
gives the address of the key. The Base58 text is the one `EncodeBase58` returns whenever its
counters suffice. -/
theorem both_notations_same_address (C : Chain) {pk : Bytes} (hpk : WellFormedKey pk)
    (suffix : Bytes) (depth : Nat) :
    ∃ addr, addressOf C pk = .ok addr ∧
      (Encodable (pk ++ suffix) → encodeBase58 (pk ++ suffix) = .ok (base58 (pk ++ suffix))) ∧
      transutaddr C (depth + 3) ((pk ++ suffix).flatMap hexStr) = some (.ok addr) ∧
      transutaddr C (depth + 3) (pk.flatMap hexStr) = some (.ok addr) ∧
      transutaddr C (depth + 3) (UOS ++ base58 (pk ++ suffix)) = some (.ok addr) := by
  obtain ⟨addr, haddr⟩ := addressOf_ok (C := C) pk
  obtain ⟨chHeader, hhead, hzero, -, -⟩ := getLen_of_wellFormed hpk
  have hhead' : (pk ++ suffix).head? = some chHeader := by
    rw [head?_append, hhead]
    rfl
  have hall := bytesAddress_append hpk haddr suffix
  have hkey := bytesAddress_append hpk haddr []
  rw [append_nil] at hkey
  refine ⟨addr, haddr, encodeBase58_eq, ?_, ?_, ?_⟩
  · rw [transutaddr_hex, hall]
  · rw [transutaddr_hex, hkey]
  · rw [transutaddr_decoded depth (decodedBytes_base58 hhead' hzero), hall]

def twos : Bytes := replicate 33 2

theorem both_notations_same_address_twos :
    ∃ addr, addressOf constantChain twos = .ok addr ∧
      encodeBase58 (twos ++ [0xab]) = .ok (base58 (twos ++ [0xab])) ∧
      transutaddr constantChain (0 + 3) ((twos ++ [0xab]).flatMap hexStr) =
        some (.ok addr) ∧
      transutaddr constantChain (0 + 3) (twos.flatMap hexStr) = some (.ok addr) ∧
      transutaddr constantChain (0 + 3) (UOS ++ base58 (twos ++ [0xab])) =
        some (.ok addr) := by
  have hpk : WellFormedKey twos := .inl ⟨rfl, .inl rfl⟩
  obtain ⟨addr, haddr, hencode, hall⟩ :=
    both_notations_same_address constantChain hpk [0xab] 0
  exact ⟨addr, haddr, hencode (by constructor <;> decide), hall⟩

/-- The call reads nothing beyond a vector, and gives an address only for bytes that start with a
public key. -/
def Refuses (C : Chain) (depth : Nat) (s : Bytes) : Prop :=
  ∃ str, transutaddr C depth s = some (.ok str) ∧
    (str ≠ pubkeyError → ∃ vch, decodedBytes s = some vch ∧ StartsWithKey vch)

/-- A text is treated right exactly if `UOS` stands in it behind the front, which is refused at
once, or if a public key is at its front. -/
theorem malformed_keys_refused_iff (C : Chain) (s : Bytes) (depth : Nat) :
    Refuses C (depth + 3) s ↔
      (∃ n, find UOS s = some (n + 1)) ∨ ∃ vch, decodedBytes s = some vch ∧ StartsWithKey vch := by
  constructor
  · rintro ⟨str, hstr, hkey⟩
    by_cases herror : str = pubkeyError
    · rcases decodedBytes_of_ok hstr with hinside | ⟨vch, hdecoded, hbytes⟩
      · exact .inl hinside
      · refine .inr ⟨vch, hdecoded, Classical.by_contradiction fun hother => ?_⟩
        rcases bytesAddress_other (C := C) hother with hbeyond | ⟨addr, haddr, hbytes'⟩
        · rw [hbytes] at hbeyond
          cases hbeyond
        · rw [hbytes] at hbytes'
          cases hbytes'
          exact addressOf_ne_pubkeyError haddr herror
    · exact .inr (hkey herror)
  · rintro (⟨n, hfind⟩ | ⟨vch, hdecoded, chHeader, hhead, hne, hle⟩)
    · exact ⟨pubkeyError, transutaddr_inside depth hfind, fun hne => absurd rfl hne⟩
    · obtain ⟨addr, -, hbytes⟩ := bytesAddress_key (C := C) hhead hne hle
      refine ⟨addr, ?_, fun _ => ⟨vch, hdecoded, chHeader, hhead, hne, hle⟩⟩
      rw [transutaddr_decoded depth hdecoded, hbytes]

/-- A header without the rest of its key is read beyond the end, and the byte 0 alone gets an
address. -/
theorem header_alone_read_beyond :
    transutaddr constantChain 3 (hexStr 2) = some (.error .outOfRange) ∧
      transutaddr constantChain 3 [] = some (.error .outOfRange) ∧
      ∃ addr, addr ≠ pubkeyError ∧
        transutaddr constantChain 3 (hexStr 0) = some (.ok addr) := by
  obtain ⟨addr, haddr⟩ := addressOf_ok (C := constantChain) []
  refine ⟨by decide, by decide, addr, addressOf_ne_pubkeyError haddr, ?_⟩
  have hread : bytesAddress constantChain [0] = .ok addr := by
    rw [bytesAddress]
    have hset : CPubKey.set ([0].take (getLen 0)) = [] := by decide
    rw [hset, haddr]
    rfl
  rw [← hread]
  exact transutaddr_hex 2 [0]

end

end Utsuite.UosAddress
