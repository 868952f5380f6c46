import Utsuite.ScriptSign

namespace Utsuite.Script

open ByteWords Transaction List
open ScriptSign (pushData)

def MAX_SCRIPT_ELEMENT_SIZE : Nat := 520
def MAX_OPS_PER_SCRIPT : Nat := 201
def MAX_PUBKEYS_PER_MULTISIG : Nat := 20
def MAX_SCRIPT_SIZE : Nat := 10000

abbrev opcodetype := UInt8

abbrev OP_0 : opcodetype := 0x00
abbrev OP_PUSHDATA1 : opcodetype := 0x4c
abbrev OP_PUSHDATA2 : opcodetype := 0x4d
abbrev OP_PUSHDATA4 : opcodetype := 0x4e
abbrev OP_1NEGATE : opcodetype := 0x4f
abbrev OP_1 : opcodetype := 0x51
abbrev OP_16 : opcodetype := 0x60
abbrev OP_IF : opcodetype := 0x63
abbrev OP_ENDIF : opcodetype := 0x68
abbrev OP_RETURN : opcodetype := 0x6a
abbrev OP_DUP : opcodetype := 0x76
abbrev OP_EQUAL : opcodetype := 0x87
abbrev OP_EQUALVERIFY : opcodetype := 0x88
abbrev OP_HASH160 : opcodetype := 0xa9
abbrev OP_CODESEPARATOR : opcodetype := 0xab
abbrev OP_CHECKSIG : opcodetype := 0xac
abbrev OP_CHECKMULTISIG : opcodetype := 0xae
abbrev OP_SMALLINTEGER : opcodetype := 0xfa
abbrev OP_PUBKEYS : opcodetype := 0xfb
abbrev OP_PUBKEYHASH : opcodetype := 0xfd
abbrev OP_PUBKEY : opcodetype := 0xfe

structure Operation where
  opcode : opcodetype
  vch : Bytes
  pc : CScript
  deriving DecidableEq

def readSize (width : Nat) (pc : CScript) : Except CScript (Nat × CScript) :=
  if pc.length < width then .error pc else .ok (leValue (pc.take width), pc.drop width)

def pushSize (opcode : opcodetype) (pc : CScript) : Except CScript (Nat × CScript) :=
  if opcode < OP_PUSHDATA1 then .ok (opcode.toNat, pc)
  else if opcode = OP_PUSHDATA1 then readSize 1 pc
  else if opcode = OP_PUSHDATA2 then readSize 2 pc
  else readSize 4 pc

def getOp : CScript → Except CScript Operation
  | [] => .error []
  | opcode :: pc =>
    if opcode ≤ OP_PUSHDATA4 then
      match pushSize opcode pc with
      | .error pc => .error pc
      | .ok (nSize, pc) =>
        if pc.length < nSize then .error pc
        else .ok ⟨opcode, pc.take nSize, pc.drop nSize⟩
    else .ok ⟨opcode, [], pc⟩

inductive Code
  | finished
  | bad (pc : CScript)
  | op (o : Operation) (rest : Code)
  deriving DecidableEq

def decodeLoop : Nat → CScript → Code
  | _, [] => .finished
  | 0, _ :: _ => .finished
  | rounds + 1, opcode :: pc =>
    match getOp (opcode :: pc) with
    | .error pc => .bad pc
    | .ok o => .op o (decodeLoop rounds o.pc)

def decode (script : CScript) : Code := decodeLoop script.length script

def Code.isPushOnly : Code → Bool
  | .finished => true
  | .bad _ => false
  | .op o rest => if o.opcode > OP_16 then false else rest.isPushOnly

def isPushOnly (script : CScript) : Bool := (decode script).isPushOnly

def isPayToScriptHash (script : CScript) : Bool :=
  script.length == 23 && script[0]? == some OP_HASH160 && script[1]? == some 0x14 &&
    script[22]? == some OP_EQUAL

def decodeOP_N (opcode : opcodetype) : Option Nat :=
  if opcode = OP_0 then some 0
  else if OP_1 ≤ opcode ∧ opcode ≤ OP_16 then some (opcode.toNat - (OP_1.toNat - 1))
  else none

def skipCopies (b : CScript) : Nat → CScript → CScript × Nat
  | 0, pc => (pc, 0)
  | rounds + 1, pc =>
    if pc.length ≥ b.length ∧ pc.take b.length = b then
      let (pc, nFound) := skipCopies b rounds (pc.drop b.length)
      (pc, nFound + 1)
    else (pc, 0)

def deleteLoop (b : CScript) : Nat → CScript → CScript × Nat
  | 0, pc => (pc, 0)
  | rounds + 1, pc =>
    let (pc2, nFound) := skipCopies b pc.length pc
    match getOp pc2 with
    | .error _ => (pc2, nFound)
    | .ok o =>
      let (result, nMore) := deleteLoop b rounds o.pc
      (pc2.take (pc2.length - o.pc.length) ++ result, nFound + nMore)

def findAndDelete (script b : CScript) : CScript :=
  if b.isEmpty then script
  else
    let (result, nFound) := deleteLoop b (script.length + 1) script
    if nFound > 0 then result else script

def setVch (vch : Bytes) : Int :=
  match vch.getLast? with
  | none => 0
  | some last =>
    if last &&& 0x80 ≠ 0 then -((leValue vch : Int) - 0x80 * 256 ^ (vch.length - 1))
    else leValue vch

/-- The last byte is zero but for its sign bit, and it is not needed for the sign. -/
def nonMinimal (vch : Bytes) : Prop :=
  vch.getLastD 0 &&& 0x7f = 0 ∧ (vch.length ≤ 1 ∨ vch.dropLast.getLastD 0 &&& 0x80 = 0)

instance (vch : Bytes) : Decidable (nonMinimal vch) := inferInstanceAs (Decidable (_ ∧ _))

def scriptNum (vch : Bytes) (fRequireMinimal : Bool) (nMaxNumSize : Nat) : Option Int :=
  if vch.length > nMaxNumSize then none
  else if fRequireMinimal ∧ vch.length > 0 ∧ nonMinimal vch then none
  else some (setVch vch)

def magnitude : Nat → Nat → Bytes
  | 0, _ => []
  | width + 1, absvalue =>
    if absvalue = 0 then [] else UInt8.ofNat absvalue :: magnitude width (absvalue / 256)

def serialize (value : Int) : Bytes :=
  if value = 0 then []
  else
    let neg := decide (value < 0)
    let result := magnitude 8 value.natAbs
    if result.getLastD 0 &&& 0x80 ≠ 0 then result ++ [if neg then 0x80 else 0]
    else if neg then result.dropLast ++ [result.getLastD 0 ||| 0x80]
    else result

def getint (value : Int) : Int :=
  if value > 2 ^ 31 - 1 then 2 ^ 31 - 1 else if value < -2 ^ 31 then -2 ^ 31 else value

theorem readSize_ok (h : readSize width pc = .ok (n, rest)) : pc = leBytes width n ++ rest := by
  rw [readSize] at h
  split_ifs at h with hlt
  cases h
  have hlen : (pc.take width).length = width := length_take_of_le (not_lt.mp hlt)
  have hbytes := leBytes_leValue (pc.take width)
  rw [hlen] at hbytes
  rw [hbytes, take_append_drop]

theorem pushSize_ok (h : pushSize opcode pc = .ok (n, rest)) :
    ∃ width ≤ 4, pc = leBytes width n ++ rest := by
  rw [pushSize] at h
  split_ifs at h
  · cases h
    exact ⟨0, Nat.zero_le _, rfl⟩
  all_goals exact ⟨_, by decide, readSize_ok h⟩

theorem getOp_ok (h : getOp pc = .ok o) :
    ∃ rest, pc = o.opcode :: rest ∧
      (o.opcode ≤ OP_PUSHDATA4 ∧ pushSize o.opcode rest = .ok (o.vch.length, o.vch ++ o.pc) ∨
        ¬o.opcode ≤ OP_PUSHDATA4 ∧ o.vch = [] ∧ o.pc = rest) := by
  cases pc with
  | nil => cases h
  | cons opcode pc =>
    rw [getOp] at h
    split_ifs at h with hle
    · split at h
      · cases h
      case h_2 nSize pc' hsize =>
        split_ifs at h with hlt
        cases h
        refine ⟨pc, rfl, .inl ⟨hle, ?_⟩⟩
        rw [hsize, length_take_of_le (not_lt.mp hlt), take_append_drop]
    · cases h
      exact ⟨pc, rfl, .inr ⟨hle, rfl, rfl⟩⟩

theorem getOp_bytes (h : getOp pc = .ok o) :
    ∃ size, size.length ≤ 4 ∧ pc = o.opcode :: size ++ (o.vch ++ o.pc) ∧
      (¬o.opcode ≤ OP_PUSHDATA4 → size ++ o.vch = []) := by
  obtain ⟨rest, rfl, ⟨hle, hsize⟩ | ⟨-, hvch, rfl⟩⟩ := getOp_ok h
  · obtain ⟨width, hwidth, rfl⟩ := pushSize_ok hsize
    exact ⟨_, (leBytes_length ..).trans_le hwidth, rfl, fun hop => absurd hle hop⟩
  · exact ⟨[], Nat.zero_le _, by rw [hvch]; rfl, fun _ => hvch⟩

theorem getOp_pc_lt (h : getOp pc = .ok o) : o.pc.length < pc.length := by
  obtain ⟨size, -, rfl, -⟩ := getOp_bytes h
  simp only [cons_append, length_cons, length_append]
  omega

theorem decodeLoop_rounds (hn : pc.length ≤ n) (hm : pc.length ≤ m) :
    decodeLoop n pc = decodeLoop m pc := by
  induction n generalizing m pc with
  | zero =>
    rw [eq_nil_of_length_eq_zero (Nat.le_zero.mp hn)]
    cases m <;> rfl
  | succ n ih =>
    cases pc with
    | nil => cases m <;> rfl
    | cons opcode pc =>
      cases m with
      | zero => cases hm
      | succ m =>
        rw [decodeLoop, decodeLoop]
        cases hop : getOp (opcode :: pc) with
        | error pc' => rfl
        | ok o =>
          have hlt := getOp_pc_lt hop
          rw [length_cons] at hn hm hlt
          exact congrArg (Code.op o) (ih (by omega) (by omega))

@[simp] theorem decode_nil : decode [] = .finished := rfl

theorem decode_ok (h : getOp pc = .ok o) : decode pc = .op o (decode o.pc) := by
  have hlt := getOp_pc_lt h
  cases pc with
  | nil => cases h
  | cons opcode pc =>
    rw [length_cons] at hlt
    rw [decode, length_cons, decodeLoop, h]
    exact congrArg (Code.op o) (decodeLoop_rounds (Nat.lt_succ_iff.mp hlt) le_rfl)

theorem decode_error (h : getOp (opcode :: pc) = .error pc') :
    decode (opcode :: pc) = .bad pc' := by
  rw [decode, length_cons, decodeLoop, h]

theorem script_induction {motive : CScript → Prop} (nil : motive [])
    (bad : ∀ opcode pc pc', getOp (opcode :: pc) = .error pc' → motive (opcode :: pc))
    (op : ∀ pc o, getOp pc = .ok o → motive o.pc → motive pc) (pc : CScript) : motive pc := by
  induction hn : pc.length using Nat.strong_induction_on generalizing pc with
  | _ n ih =>
    cases pc with
    | nil => exact nil
    | cons opcode pc =>
      cases hop : getOp (opcode :: pc) with
      | error pc' => exact bad opcode pc pc' hop
      | ok o => exact op _ o hop (ih _ (hn ▸ getOp_pc_lt hop) _ rfl)

end Utsuite.Script
