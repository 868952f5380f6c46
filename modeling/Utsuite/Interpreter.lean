import Utsuite.Hoare
import Utsuite.Script

namespace Utsuite.Interpreter

open ByteWords Transaction Script
open ScriptSign (pushData)

inductive ScriptError
  | OK
  | UNKNOWN_ERROR
  | EVAL_FALSE
  | OP_RETURN
  | SCRIPT_SIZE
  | PUSH_SIZE
  | OP_COUNT
  | STACK_SIZE
  | SIG_COUNT
  | PUBKEY_COUNT
  | VERIFY
  | EQUALVERIFY
  | CHECKMULTISIGVERIFY
  | CHECKSIGVERIFY
  | NUMEQUALVERIFY
  | BAD_OPCODE
  | DISABLED_OPCODE
  | INVALID_STACK_OPERATION
  | INVALID_ALTSTACK_OPERATION
  | UNBALANCED_CONDITIONAL
  | NEGATIVE_LOCKTIME
  | UNSATISFIED_LOCKTIME
  | SIG_HASHTYPE
  | SIG_DER
  | MINIMALDATA
  | SIG_PUSHONLY
  | SIG_HIGH_S
  | SIG_NULLDUMMY
  | PUBKEYTYPE
  | CLEANSTACK
  | DISCOURAGE_UPGRADABLE_NOPS
  deriving DecidableEq

def SIGHASH_ALL : Nat := 1
def SIGHASH_NONE : Nat := 2
def SIGHASH_SINGLE : Nat := 3
def SIGHASH_ANYONECANPAY : Nat := 0x80

inductive VerifyFlag
  | P2SH
  | STRICTENC
  | DERSIG
  | LOW_S
  | NULLDUMMY
  | SIGPUSHONLY
  | MINIMALDATA
  | DISCOURAGE_UPGRADABLE_NOPS
  | CLEANSTACK
  | CHECKLOCKTIMEVERIFY
  | CHECKSEQUENCEVERIFY
  deriving DecidableEq

def VerifyFlag.bit : VerifyFlag → Nat
  | P2SH => 0
  | STRICTENC => 1
  | DERSIG => 2
  | LOW_S => 3
  | NULLDUMMY => 4
  | SIGPUSHONLY => 5
  | MINIMALDATA => 6
  | DISCOURAGE_UPGRADABLE_NOPS => 7
  | CLEANSTACK => 8
  | CHECKLOCKTIMEVERIFY => 9
  | CHECKSEQUENCEVERIFY => 10

def has (flags : BitVec 32) (flag : VerifyFlag) : Bool := flags.getLsbD flag.bit

abbrev Digest (n : Nat) := {bytes : Bytes // bytes.length = n}

structure Primitives where
  ripemd160 : Bytes → Digest 20
  sha1 : Bytes → Digest 20
  sha256 : Bytes → Digest 32
  checkLowS : Bytes → Bool

def Primitives.hash160 (P : Primitives) (vch : Bytes) : Digest 20 := P.ripemd160 (P.sha256 vch).1

def Primitives.hash256 (P : Primitives) (vch : Bytes) : Digest 32 := P.sha256 (P.sha256 vch).1

structure BaseSignatureChecker where
  checkSig : Bytes → Bytes → CScript → Bool
  checkLockTime : Int → Bool
  checkSequence : Int → Bool

def BaseSignatureChecker.refusing : BaseSignatureChecker :=
  ⟨fun _ _ _ => false, fun _ => false, fun _ => false⟩

def castToBool : Bytes → Bool
  | [] => false
  | b :: rest => if b ≠ 0 then !(rest.isEmpty && b == 0x80) else castToBool rest

def isCompressedOrUncompressedPubKey (vchPubKey : Bytes) : Bool :=
  if vchPubKey.length < 33 then false
  else if vchPubKey.headD 0 = 0x04 then vchPubKey.length == 65
  else if vchPubKey.headD 0 = 0x02 ∨ vchPubKey.headD 0 = 0x03 then vchPubKey.length == 33
  else false

section

/-- A condition of `IsValidSignatureEncoding` that rejects. `none` stands for a read outside of the
signature. -/
def refuse (c k : Option Bool) : Option Bool := c.bind fun c => if c then some false else k

def both (a b : Option Bool) : Option Bool := a.bind fun a => if a then b else some false

def isValidSignatureEncoding (sig : Bytes) : Option Bool :=
  refuse (decide (sig.length < 9)) <|
  refuse (decide (sig.length > 73)) <|
  refuse (sig[0]?.map (· != 0x30)) <|
  refuse (sig[1]?.map (·.toNat != sig.length - 3)) <|
  sig[3]?.bind fun lenR =>
  refuse (decide (5 + lenR.toNat ≥ sig.length)) <|
  sig[5 + lenR.toNat]?.bind fun lenS =>
  refuse (decide (lenR.toNat + lenS.toNat + 7 ≠ sig.length)) <|
  refuse (sig[2]?.map (· != 0x02)) <|
  refuse (decide (lenR = 0)) <|
  refuse (sig[4]?.map (· &&& 0x80 != 0)) <|
  refuse (both (decide (lenR > 1)) (both (sig[4]?.map (· == 0)) (sig[5]?.map (· &&& 0x80 == 0)))) <|
  refuse (sig[lenR.toNat + 4]?.map (· != 0x02)) <|
  refuse (decide (lenS = 0)) <|
  refuse (sig[lenR.toNat + 6]?.map (· &&& 0x80 != 0)) <|
  refuse (both (decide (lenS > 1))
    (both (sig[lenR.toNat + 6]?.map (· == 0)) (sig[lenR.toNat + 7]?.map (· &&& 0x80 == 0)))) <|
  some true

variable (P : Primitives) (flags : BitVec 32)

def isLowDERSignature (vchSig : Bytes) : Option ScriptError :=
  if isValidSignatureEncoding vchSig ≠ some true then some .SIG_DER
  else if !P.checkLowS vchSig.dropLast then some .SIG_HIGH_S
  else none

def isDefinedHashtypeSignature (vchSig : Bytes) : Bool :=
  match vchSig.getLast? with
  | none => false
  | some last =>
    let nHashType := (last &&& ~~~UInt8.ofNat SIGHASH_ANYONECANPAY).toNat
    !(nHashType < SIGHASH_ALL || nHashType > SIGHASH_SINGLE)

def checkSignatureEncoding (vchSig : Bytes) : Option ScriptError :=
  if vchSig.length = 0 then none
  else if (has flags .DERSIG || has flags .LOW_S || has flags .STRICTENC) ∧
      isValidSignatureEncoding vchSig ≠ some true then some .SIG_DER
  else if has flags .LOW_S ∧ isLowDERSignature P vchSig ≠ none then isLowDERSignature P vchSig
  else if has flags .STRICTENC ∧ !isDefinedHashtypeSignature vchSig then some .SIG_HASHTYPE
  else none

def checkPubKeyEncoding (vchPubKey : Bytes) : Option ScriptError :=
  if has flags .STRICTENC ∧ !isCompressedOrUncompressedPubKey vchPubKey then some .PUBKEYTYPE
  else none

def checkMinimalPush (data : Bytes) (opcode : opcodetype) : Bool :=
  if data.length = 0 then opcode == OP_0
  else if data.length = 1 ∧ 1 ≤ data.headD 0 ∧ data.headD 0 ≤ 16 then
    opcode == OP_1 + (data.headD 0 - 1)
  else if data.length = 1 ∧ data.headD 0 = 0x81 then opcode == OP_1NEGATE
  else if data.length ≤ 75 then opcode.toNat == data.length
  else if data.length ≤ 255 then opcode == OP_PUSHDATA1
  else if data.length ≤ 65535 then opcode == OP_PUSHDATA2
  else true

end

/-- The local state of `EvalScript`. The stacks have their tops first, and `pbegincodehash` is the
rest of the script from that position on. -/
structure Machine where
  stack : List Bytes
  altstack : List Bytes
  vfExec : List Bool
  nOpCount : Nat
  pbegincodehash : CScript

/-- The ways in which `EvalScript` stops early: an error it reports, an exception it catches, an
undefined access or a failed assertion. -/
inductive Stop
  | error (serror : ScriptError)
  | scriptnum_error
  | out_of_range
  | runtime_error
  | undefined
  | assertion
  deriving DecidableEq

abbrev Eval := EStateM Stop Machine

def failIf (c : Prop) [Decidable c] (serror : ScriptError) : Eval PUnit :=
  if c then throw (.error serror) else pure ⟨⟩

def failWith : Option ScriptError → Eval PUnit
  | none => pure ⟨⟩
  | some serror => throw (.error serror)

def assert (c : Prop) [Decidable c] : Eval PUnit := if c then pure ⟨⟩ else throw .assertion

def needStack (n : Nat) (serror : ScriptError) : Eval PUnit := do
  let s ← get
  failIf (s.stack.length < n) serror

def stacktop : Nat → Eval Bytes
  | 0 => throw .out_of_range
  | i + 1 => do
    let s ← get
    match s.stack[i]? with
    | some vch => pure vch
    | none => throw .out_of_range

def push (vch : Bytes) : Eval PUnit := modify fun s => { s with stack := vch :: s.stack }

def popstack : Eval PUnit := do
  let s ← get
  match s.stack with
  | [] => throw .runtime_error
  | _ :: stack => set { s with stack }

def popstacks : Nat → Eval PUnit
  | 0 => pure ⟨⟩
  | n + 1 => do
    popstack
    popstacks n

def erase (i j : Nat) : Eval PUnit := do
  let s ← get
  if s.stack.length < i then throw .undefined
  else set { s with stack := s.stack.take j ++ s.stack.drop i }

def insert (i : Nat) (vch : Bytes) : Eval PUnit := do
  let s ← get
  if s.stack.length < i then throw .undefined
  else set { s with stack := s.stack.take i ++ vch :: s.stack.drop i }

def swapTops (i j : Nat) : Eval PUnit := do
  let x ← stacktop i
  let y ← stacktop j
  modify fun s => { s with stack := (s.stack.set (i - 1) y).set (j - 1) x }

def number (vch : Bytes) (fRequireMinimal : Bool) (nMaxNumSize : Nat) : Eval Int :=
  match scriptNum vch fRequireMinimal nMaxNumSize with
  | some bn => pure bn
  | none => throw .scriptnum_error

def int64 (n : Int) : Eval Int := if -2 ^ 63 ≤ n ∧ n < 2 ^ 63 then pure n else throw .undefined

inductive Case
  | pushNumber
  | OP_NOP
  | OP_CHECKLOCKTIMEVERIFY
  | OP_CHECKSEQUENCEVERIFY
  | upgradableNop
  | OP_IF
  | OP_NOTIF
  | OP_ELSE
  | OP_ENDIF
  | OP_VERIFY
  | OP_RETURN
  | OP_TOALTSTACK
  | OP_FROMALTSTACK
  | OP_2DROP
  | OP_2DUP
  | OP_3DUP
  | OP_2OVER
  | OP_2ROT
  | OP_2SWAP
  | OP_IFDUP
  | OP_DEPTH
  | OP_DROP
  | OP_DUP
  | OP_NIP
  | OP_OVER
  | OP_PICK
  | OP_ROLL
  | OP_ROT
  | OP_SWAP
  | OP_TUCK
  | OP_SIZE
  | OP_EQUAL
  | OP_EQUALVERIFY
  | numeric
  | numericPair
  | OP_WITHIN
  | hash
  | OP_CODESEPARATOR
  | OP_CHECKSIG
  | OP_CHECKSIGVERIFY
  | OP_CHECKMULTISIG
  | OP_CHECKMULTISIGVERIFY
  deriving DecidableEq

def caseLabels : List (opcodetype × Case) :=
  [(0x4f, .pushNumber), (0x51, .pushNumber), (0x52, .pushNumber), (0x53, .pushNumber),
    (0x54, .pushNumber), (0x55, .pushNumber), (0x56, .pushNumber), (0x57, .pushNumber),
    (0x58, .pushNumber), (0x59, .pushNumber), (0x5a, .pushNumber), (0x5b, .pushNumber),
    (0x5c, .pushNumber), (0x5d, .pushNumber), (0x5e, .pushNumber), (0x5f, .pushNumber),
    (0x60, .pushNumber), (0x61, .OP_NOP), (0xb1, .OP_CHECKLOCKTIMEVERIFY),
    (0xb2, .OP_CHECKSEQUENCEVERIFY), (0xb0, .upgradableNop), (0xb3, .upgradableNop),
    (0xb4, .upgradableNop), (0xb5, .upgradableNop), (0xb6, .upgradableNop),
    (0xb7, .upgradableNop), (0xb8, .upgradableNop), (0xb9, .upgradableNop),
    (0x63, .OP_IF), (0x64, .OP_NOTIF), (0x67, .OP_ELSE), (0x68, .OP_ENDIF), (0x69, .OP_VERIFY),
    (0x6a, .OP_RETURN), (0x6b, .OP_TOALTSTACK), (0x6c, .OP_FROMALTSTACK), (0x6d, .OP_2DROP),
    (0x6e, .OP_2DUP), (0x6f, .OP_3DUP), (0x70, .OP_2OVER), (0x71, .OP_2ROT), (0x72, .OP_2SWAP),
    (0x73, .OP_IFDUP), (0x74, .OP_DEPTH), (0x75, .OP_DROP), (0x76, .OP_DUP), (0x77, .OP_NIP),
    (0x78, .OP_OVER), (0x79, .OP_PICK), (0x7a, .OP_ROLL), (0x7b, .OP_ROT), (0x7c, .OP_SWAP),
    (0x7d, .OP_TUCK), (0x82, .OP_SIZE), (0x87, .OP_EQUAL), (0x88, .OP_EQUALVERIFY),
    (0x8b, .numeric), (0x8c, .numeric), (0x8f, .numeric), (0x90, .numeric), (0x91, .numeric),
    (0x92, .numeric), (0x93, .numericPair), (0x94, .numericPair), (0x9a, .numericPair),
    (0x9b, .numericPair), (0x9c, .numericPair), (0x9d, .numericPair), (0x9e, .numericPair),
    (0x9f, .numericPair), (0xa0, .numericPair), (0xa1, .numericPair), (0xa2, .numericPair),
    (0xa3, .numericPair), (0xa4, .numericPair), (0xa5, .OP_WITHIN), (0xa6, .hash), (0xa7, .hash),
    (0xa8, .hash), (0xa9, .hash), (0xaa, .hash), (0xab, .OP_CODESEPARATOR), (0xac, .OP_CHECKSIG),
    (0xad, .OP_CHECKSIGVERIFY), (0xae, .OP_CHECKMULTISIG), (0xaf, .OP_CHECKMULTISIGVERIFY)]

def disabled : List opcodetype :=
  [0x7e, 0x7f, 0x80, 0x81, 0x83, 0x84, 0x85, 0x86, 0x8d, 0x8e, 0x95, 0x96, 0x97, 0x98, 0x99]

section

variable (P : Primitives) (flags : BitVec 32) (checker : BaseSignatureChecker)

def vchTrue : Bytes := [1]
def vchFalse : Bytes := []

def boolVch (fValue : Bool) : Bytes := if fValue then vchTrue else vchFalse

def verifyTop (fSuccess : Bool) (serror : ScriptError) : Eval PUnit :=
  if fSuccess then popstack else throw (.error serror)

def pushNumber (opcode : opcodetype) : Eval PUnit :=
  push (serialize (opcode.toNat - (OP_1.toNat - 1) : Int))

def upgradableNop : Eval PUnit :=
  failIf (has flags .DISCOURAGE_UPGRADABLE_NOPS) .DISCOURAGE_UPGRADABLE_NOPS

def checkLockTimeVerify : Eval PUnit :=
  if has flags .CHECKLOCKTIMEVERIFY then do
    needStack 1 .INVALID_STACK_OPERATION
    let vch ← stacktop 1
    let nLockTime ← number vch (has flags .MINIMALDATA) 5
    failIf (nLockTime < 0) .NEGATIVE_LOCKTIME
    failIf (!checker.checkLockTime nLockTime) .UNSATISFIED_LOCKTIME
  else upgradableNop flags

def SEQUENCE_LOCKTIME_DISABLE_FLAG : Nat := 2 ^ 31

def checkSequenceVerify : Eval PUnit :=
  if has flags .CHECKSEQUENCEVERIFY then do
    needStack 1 .INVALID_STACK_OPERATION
    let vch ← stacktop 1
    let nSequence ← number vch (has flags .MINIMALDATA) 5
    failIf (nSequence < 0) .NEGATIVE_LOCKTIME
    failIf (nSequence.toNat &&& SEQUENCE_LOCKTIME_DISABLE_FLAG = 0 ∧
      !checker.checkSequence nSequence) .UNSATISFIED_LOCKTIME
  else upgradableNop flags

def pushExec (fValue : Bool) : Eval PUnit :=
  modify fun s => { s with vfExec := fValue :: s.vfExec }

def conditional (fExec negated : Bool) : Eval PUnit :=
  if fExec then do
    needStack 1 .UNBALANCED_CONDITIONAL
    let vch ← stacktop 1
    popstack
    pushExec (castToBool vch != negated)
  else pushExec false

def needExec : Eval PUnit := do
  let s ← get
  failIf s.vfExec.isEmpty .UNBALANCED_CONDITIONAL

def elseBranch : Eval PUnit := do
  needExec
  let s ← get
  match s.vfExec with
  | [] => throw .undefined
  | back :: vfExec => set { s with vfExec := (!back) :: vfExec }

def endIf : Eval PUnit := do
  needExec
  let s ← get
  match s.vfExec with
  | [] => throw .undefined
  | _ :: vfExec => set { s with vfExec }

def verify : Eval PUnit := do
  needStack 1 .INVALID_STACK_OPERATION
  let vch ← stacktop 1
  verifyTop (castToBool vch) .VERIFY

def toAltStack : Eval PUnit := do
  needStack 1 .INVALID_STACK_OPERATION
  let vch ← stacktop 1
  modify fun s => { s with altstack := vch :: s.altstack }
  popstack

def popAltStack : Eval Bytes := do
  let s ← get
  match s.altstack with
  | [] => throw .out_of_range
  | vch :: altstack => do
    set { s with altstack }
    pure vch

def fromAltStack : Eval PUnit := do
  let s ← get
  failIf (s.altstack.length < 1) .INVALID_ALTSTACK_OPERATION
  let vch ← popAltStack
  push vch

def drop2 : Eval PUnit := do
  needStack 2 .INVALID_STACK_OPERATION
  popstack
  popstack

def dup2 : Eval PUnit := do
  needStack 2 .INVALID_STACK_OPERATION
  let vch1 ← stacktop 2
  let vch2 ← stacktop 1
  push vch1
  push vch2

def dup3 : Eval PUnit := do
  needStack 3 .INVALID_STACK_OPERATION
  let vch1 ← stacktop 3
  let vch2 ← stacktop 2
  let vch3 ← stacktop 1
  push vch1
  push vch2
  push vch3

def over2 : Eval PUnit := do
  needStack 4 .INVALID_STACK_OPERATION
  let vch1 ← stacktop 4
  let vch2 ← stacktop 3
  push vch1
  push vch2

def rot2 : Eval PUnit := do
  needStack 6 .INVALID_STACK_OPERATION
  let vch1 ← stacktop 6
  let vch2 ← stacktop 5
  erase 6 4
  push vch1
  push vch2

def swap2 : Eval PUnit := do
  needStack 4 .INVALID_STACK_OPERATION
  swapTops 4 2
  swapTops 3 1

def pushIf (fValue : Bool) (vch : Bytes) : Eval PUnit := if fValue then push vch else pure ⟨⟩

def ifDup : Eval PUnit := do
  needStack 1 .INVALID_STACK_OPERATION
  let vch ← stacktop 1
  pushIf (castToBool vch) vch

def depth : Eval PUnit := do
  let s ← get
  push (serialize s.stack.length)

def drop : Eval PUnit := do
  needStack 1 .INVALID_STACK_OPERATION
  popstack

def dup : Eval PUnit := do
  needStack 1 .INVALID_STACK_OPERATION
  let vch ← stacktop 1
  push vch

def nip : Eval PUnit := do
  needStack 2 .INVALID_STACK_OPERATION
  erase 2 1

def over1 : Eval PUnit := do
  needStack 2 .INVALID_STACK_OPERATION
  let vch ← stacktop 2
  push vch

def eraseIf (c : Bool) (i j : Nat) : Eval PUnit := if c then erase i j else pure ⟨⟩

def pick (roll : Bool) : Eval PUnit := do
  needStack 2 .INVALID_STACK_OPERATION
  let top ← stacktop 1
  let bn ← number top (has flags .MINIMALDATA) 4
  let n := getint bn
  popstack
  let s ← get
  failIf (n < 0 ∨ n ≥ s.stack.length) .INVALID_STACK_OPERATION
  let vch ← stacktop (n.toNat + 1)
  eraseIf roll (n.toNat + 1) n.toNat
  push vch

def rot : Eval PUnit := do
  needStack 3 .INVALID_STACK_OPERATION
  swapTops 3 2
  swapTops 2 1

def swap : Eval PUnit := do
  needStack 2 .INVALID_STACK_OPERATION
  swapTops 2 1

def tuck : Eval PUnit := do
  needStack 2 .INVALID_STACK_OPERATION
  let vch ← stacktop 1
  insert 2 vch

def size : Eval PUnit := do
  needStack 1 .INVALID_STACK_OPERATION
  let vch ← stacktop 1
  push (serialize vch.length)

def verifyIf (c fSuccess : Bool) (serror : ScriptError) : Eval PUnit :=
  if c then verifyTop fSuccess serror else pure ⟨⟩

def equal (fVerify : Bool) : Eval PUnit := do
  needStack 2 .INVALID_STACK_OPERATION
  let vch1 ← stacktop 2
  let vch2 ← stacktop 1
  let fEqual := vch1 == vch2
  popstack
  popstack
  push (boolVch fEqual)
  verifyIf fVerify fEqual .EQUALVERIFY

def boolNum (b : Bool) : Int := if b then 1 else 0

def addAssign (m_value rhs : Int) : Eval Int := do
  assert (rhs = 0 ∨ (rhs > 0 ∧ m_value ≤ 2 ^ 63 - 1 - rhs) ∨ (rhs < 0 ∧ m_value ≥ -2 ^ 63 - rhs))
  pure (m_value + rhs)

def subAssign (m_value rhs : Int) : Eval Int := do
  assert (rhs = 0 ∨ (rhs > 0 ∧ m_value ≥ -2 ^ 63 + rhs) ∨ (rhs < 0 ∧ m_value ≤ 2 ^ 63 - 1 + rhs))
  pure (m_value - rhs)

def negate (m_value : Int) : Eval Int := do
  assert (m_value ≠ -2 ^ 63)
  pure (-m_value)

def numericResult (opcode : opcodetype) (bn : Int) : Eval Int :=
  if opcode = 0x8b then addAssign bn 1                                 -- OP_1ADD
  else if opcode = 0x8c then subAssign bn 1                            -- OP_1SUB
  else if opcode = 0x8f then negate bn                                 -- OP_NEGATE
  else if opcode = 0x90 then if bn < 0 then negate bn else pure bn     -- OP_ABS
  else if opcode = 0x91 then pure (boolNum (bn == 0))                  -- OP_NOT
  else if opcode = 0x92 then pure (boolNum (bn != 0))                  -- OP_0NOTEQUAL
  else throw .assertion

def numeric (opcode : opcodetype) : Eval PUnit := do
  needStack 1 .INVALID_STACK_OPERATION
  let vch ← stacktop 1
  let bn ← number vch (has flags .MINIMALDATA) 4
  let bn ← numericResult opcode bn
  popstack
  push (serialize bn)

def numericPairResult (opcode : opcodetype) (bn1 bn2 : Int) : Eval Int :=
  if opcode = 0x93 then int64 (bn1 + bn2)                              -- OP_ADD
  else if opcode = 0x94 then int64 (bn1 - bn2)                         -- OP_SUB
  else if opcode = 0x9a then pure (boolNum (bn1 != 0 && bn2 != 0))     -- OP_BOOLAND
  else if opcode = 0x9b then pure (boolNum (bn1 != 0 || bn2 != 0))     -- OP_BOOLOR
  else if opcode = 0x9c then pure (boolNum (bn1 == bn2))               -- OP_NUMEQUAL
  else if opcode = 0x9d then pure (boolNum (bn1 == bn2))               -- OP_NUMEQUALVERIFY
  else if opcode = 0x9e then pure (boolNum (bn1 != bn2))               -- OP_NUMNOTEQUAL
  else if opcode = 0x9f then pure (boolNum (bn1 < bn2))                -- OP_LESSTHAN
  else if opcode = 0xa0 then pure (boolNum (bn1 > bn2))                -- OP_GREATERTHAN
  else if opcode = 0xa1 then pure (boolNum (bn1 ≤ bn2))                -- OP_LESSTHANOREQUAL
  else if opcode = 0xa2 then pure (boolNum (bn1 ≥ bn2))                -- OP_GREATERTHANOREQUAL
  else if opcode = 0xa3 then pure (if bn1 < bn2 then bn1 else bn2)     -- OP_MIN
  else if opcode = 0xa4 then pure (if bn1 > bn2 then bn1 else bn2)     -- OP_MAX
  else throw .assertion

def numEqualVerify (opcode : opcodetype) : Eval PUnit :=
  if opcode = 0x9d then do
    let vch ← stacktop 1
    verifyTop (castToBool vch) .NUMEQUALVERIFY
  else pure ⟨⟩

def numericPair (opcode : opcodetype) : Eval PUnit := do
  needStack 2 .INVALID_STACK_OPERATION
  let vch1 ← stacktop 2
  let bn1 ← number vch1 (has flags .MINIMALDATA) 4
  let vch2 ← stacktop 1
  let bn2 ← number vch2 (has flags .MINIMALDATA) 4
  let bn ← numericPairResult opcode bn1 bn2
  popstack
  popstack
  push (serialize bn)
  numEqualVerify opcode

def within : Eval PUnit := do
  needStack 3 .INVALID_STACK_OPERATION
  let vch1 ← stacktop 3
  let bn1 ← number vch1 (has flags .MINIMALDATA) 4
  let vch2 ← stacktop 2
  let bn2 ← number vch2 (has flags .MINIMALDATA) 4
  let vch3 ← stacktop 1
  let bn3 ← number vch3 (has flags .MINIMALDATA) 4
  popstack
  popstack
  popstack
  push (boolVch (bn2 ≤ bn1 && bn1 < bn3))

def hashResult (opcode : opcodetype) (vch : Bytes) : Bytes :=
  if opcode = 0xa6 then (P.ripemd160 vch).1
  else if opcode = 0xa7 then (P.sha1 vch).1
  else if opcode = 0xa8 then (P.sha256 vch).1
  else if opcode = OP_HASH160 then (P.hash160 vch).1
  else if opcode = 0xaa then (P.hash256 vch).1
  else List.replicate 32 0

def hash (opcode : opcodetype) : Eval PUnit := do
  needStack 1 .INVALID_STACK_OPERATION
  let vch ← stacktop 1
  popstack
  push (hashResult P opcode vch)

def checkSig (fVerify : Bool) : Eval PUnit := do
  needStack 2 .INVALID_STACK_OPERATION
  let vchSig ← stacktop 2
  let vchPubKey ← stacktop 1
  let s ← get
  let scriptCode := findAndDelete s.pbegincodehash (pushData vchSig)
  failWith (checkSignatureEncoding P flags vchSig)
  failWith (checkPubKeyEncoding flags vchPubKey)
  let fSuccess := checker.checkSig vchSig vchPubKey scriptCode
  popstack
  popstack
  push (boolVch fSuccess)
  verifyIf fVerify fSuccess .CHECKSIGVERIFY

def dropSigs : Nat → Nat → CScript → Eval CScript
  | 0, _, scriptCode => pure scriptCode
  | nSigsCount + 1, isig, scriptCode => do
    let vchSig ← stacktop isig
    dropSigs nSigsCount (isig + 1) (findAndDelete scriptCode (pushData vchSig))

def checkSigs (scriptCode : CScript) : (nKeysCount nSigsCount isig ikey : Nat) → Eval Bool
  | _, 0, _, _ => pure true
  -- there are never more signatures than keys left
  | 0, _ + 1, _, _ => pure false
  | nKeysCount + 1, nSigsCount + 1, isig, ikey => do
    let vchSig ← stacktop isig
    let vchPubKey ← stacktop ikey
    failWith (checkSignatureEncoding P flags vchSig)
    failWith (checkPubKeyEncoding flags vchPubKey)
    let fOk := checker.checkSig vchSig vchPubKey scriptCode
    let nSigsLeft := if fOk then nSigsCount else nSigsCount + 1
    if nSigsLeft > nKeysCount then pure false
    else checkSigs scriptCode nKeysCount nSigsLeft (if fOk then isig + 1 else isig) (ikey + 1)

def popDummy : Eval PUnit := do
  needStack 1 .INVALID_STACK_OPERATION
  let dummy ← stacktop 1
  failIf (has flags .NULLDUMMY ∧ dummy.length ≠ 0) .SIG_NULLDUMMY
  popstack

def checkMultisig (fVerify : Bool) : Eval PUnit := do
  needStack 1 .INVALID_STACK_OPERATION
  let keysVch ← stacktop 1
  let keysNum ← number keysVch (has flags .MINIMALDATA) 4
  failIf (getint keysNum < 0 ∨ getint keysNum > MAX_PUBKEYS_PER_MULTISIG) .PUBKEY_COUNT
  let nKeysCount := (getint keysNum).toNat
  modify fun s => { s with nOpCount := s.nOpCount + nKeysCount }
  let s ← get
  failIf (s.nOpCount > MAX_OPS_PER_SCRIPT) .OP_COUNT
  let ikey := 2
  needStack (ikey + nKeysCount) .INVALID_STACK_OPERATION
  let sigsVch ← stacktop (ikey + nKeysCount)
  let sigsNum ← number sigsVch (has flags .MINIMALDATA) 4
  failIf (getint sigsNum < 0 ∨ getint sigsNum > nKeysCount) .SIG_COUNT
  let nSigsCount := (getint sigsNum).toNat
  let isig := ikey + nKeysCount + 1
  needStack (isig + nSigsCount) .INVALID_STACK_OPERATION
  let scriptCode ← dropSigs nSigsCount isig s.pbegincodehash
  let fSuccess ← checkSigs P flags checker scriptCode nKeysCount nSigsCount isig ikey
  popstacks (isig + nSigsCount - 1)
  popDummy flags
  push (boolVch fSuccess)
  verifyIf fVerify fSuccess .CHECKMULTISIGVERIFY

def execute (fExec : Bool) (o : Operation) : Eval PUnit :=
  match caseLabels.lookup o.opcode with
  | none => throw (.error .BAD_OPCODE)
  | some c => match c with
    | .pushNumber => pushNumber o.opcode
    | .OP_NOP => pure ⟨⟩
    | .OP_CHECKLOCKTIMEVERIFY => checkLockTimeVerify flags checker
    | .OP_CHECKSEQUENCEVERIFY => checkSequenceVerify flags checker
    | .upgradableNop => upgradableNop flags
    | .OP_IF => conditional fExec false
    | .OP_NOTIF => conditional fExec true
    | .OP_ELSE => elseBranch
    | .OP_ENDIF => endIf
    | .OP_VERIFY => verify
    | .OP_RETURN => throw (.error .OP_RETURN)
    | .OP_TOALTSTACK => toAltStack
    | .OP_FROMALTSTACK => fromAltStack
    | .OP_2DROP => drop2
    | .OP_2DUP => dup2
    | .OP_3DUP => dup3
    | .OP_2OVER => over2
    | .OP_2ROT => rot2
    | .OP_2SWAP => swap2
    | .OP_IFDUP => ifDup
    | .OP_DEPTH => depth
    | .OP_DROP => drop
    | .OP_DUP => dup
    | .OP_NIP => nip
    | .OP_OVER => over1
    | .OP_PICK => pick flags false
    | .OP_ROLL => pick flags true
    | .OP_ROT => rot
    | .OP_SWAP => swap
    | .OP_TUCK => tuck
    | .OP_SIZE => size
    | .OP_EQUAL => equal false
    | .OP_EQUALVERIFY => equal true
    | .numeric => numeric flags o.opcode
    | .numericPair => numericPair flags o.opcode
    | .OP_WITHIN => within flags
    | .hash => hash P o.opcode
    | .OP_CODESEPARATOR => modify fun s => { s with pbegincodehash := o.pc }
    | .OP_CHECKSIG => checkSig P flags checker false
    | .OP_CHECKSIGVERIFY => checkSig P flags checker true
    | .OP_CHECKMULTISIG => checkMultisig P flags checker false
    | .OP_CHECKMULTISIGVERIFY => checkMultisig P flags checker true

def countOp (opcode : opcodetype) : Eval PUnit :=
  if opcode > OP_16 then do
    modify fun s => { s with nOpCount := s.nOpCount + 1 }
    let s ← get
    failIf (s.nOpCount > MAX_OPS_PER_SCRIPT) .OP_COUNT
  else pure ⟨⟩

def pushValue (o : Operation) : Eval PUnit := do
  failIf (has flags .MINIMALDATA ∧ !checkMinimalPush o.vch o.opcode) .MINIMALDATA
  push o.vch

def dispatch (fExec : Bool) (o : Operation) : Eval PUnit :=
  if fExec ∧ o.opcode ≤ OP_PUSHDATA4 then pushValue flags o
  else if fExec ∨ (OP_IF ≤ o.opcode ∧ o.opcode ≤ OP_ENDIF) then execute P flags checker fExec o
  else pure ⟨⟩

def sizeLimit : Eval PUnit := do
  let s ← get
  failIf (s.stack.length + s.altstack.length > 1000) .STACK_SIZE

def step (o : Operation) : Eval PUnit := do
  let s ← get
  failIf (o.vch.length > MAX_SCRIPT_ELEMENT_SIZE) .PUSH_SIZE
  countOp o.opcode
  failIf (o.opcode ∈ disabled) .DISABLED_OPCODE
  dispatch P flags checker (s.vfExec.all id) o
  sizeLimit

def evalCode : Code → Eval PUnit
  | .finished => pure ⟨⟩
  | .bad _ => throw (.error .BAD_OPCODE)
  | .op o rest => do
    step P flags checker o
    evalCode rest

def evalBody (script : CScript) : Eval PUnit := do
  failIf (script.length > MAX_SCRIPT_SIZE) .SCRIPT_SIZE
  evalCode P flags checker (decode script)
  let s ← get
  failIf (!s.vfExec.isEmpty) .UNBALANCED_CONDITIONAL

end

def Machine.start (stack : List Bytes) (script : CScript) : Machine := ⟨stack, [], [], 0, script⟩

inductive Failure
  | error (serror : ScriptError)
  | undefined
  | aborted
  deriving DecidableEq

def Stop.failure : Stop → Failure
  | .error serror => .error serror
  | .scriptnum_error | .out_of_range | .runtime_error => .error .UNKNOWN_ERROR
  | .undefined => .undefined
  | .assertion => .aborted

section

variable (P : Primitives) (flags : BitVec 32) (checker : BaseSignatureChecker)

def evalScript (script : CScript) : EStateM Failure (List Bytes) PUnit := fun stack =>
  match evalBody P flags checker script (Machine.start stack script) with
  | .ok _ s => .ok ⟨⟩ s.stack
  | .error e s => .error e.failure s.stack

def reject (c : Prop) [Decidable c] (serror : ScriptError) : EStateM Failure (List Bytes) PUnit :=
  if c then throw (.error serror) else pure ⟨⟩

def requireTrue : EStateM Failure (List Bytes) PUnit := do
  let stack ← get
  match stack with
  | [] => throw (.error .EVAL_FALSE)
  | vch :: _ => reject (castToBool vch = false) .EVAL_FALSE

def redeem (scriptSig : CScript) (stackCopy : List Bytes) :
    EStateM Failure (List Bytes) PUnit := do
  reject (!isPushOnly scriptSig) .SIG_PUSHONLY
  match stackCopy with
  | [] => throw .aborted
  | pubKeySerialized :: stack => do
    set stack
    evalScript P flags checker pubKeySerialized
    requireTrue

def redeemIf (c : Bool) (scriptSig : CScript) (stackCopy : List Bytes) :
    EStateM Failure (List Bytes) PUnit :=
  if c then redeem P flags checker scriptSig stackCopy else pure ⟨⟩

def cleanStack : EStateM Failure (List Bytes) PUnit :=
  if has flags .CLEANSTACK then
    if has flags .P2SH then do
      let stack ← get
      reject (stack.length ≠ 1) .CLEANSTACK
    else throw .aborted
  else pure ⟨⟩

def verifyBody (scriptSig scriptPubKey : CScript) : EStateM Failure (List Bytes) PUnit := do
  reject (has flags .SIGPUSHONLY ∧ !isPushOnly scriptSig) .SIG_PUSHONLY
  evalScript P flags checker scriptSig
  let stackCopy ← get
  evalScript P flags checker scriptPubKey
  requireTrue
  redeemIf P flags checker (has flags .P2SH && isPayToScriptHash scriptPubKey) scriptSig stackCopy
  cleanStack flags

def verifyScript (scriptSig scriptPubKey : CScript) : Bool :=
  match verifyBody P flags checker scriptSig scriptPubKey [] with
  | .ok _ _ => true
  | .error _ _ => false

end

end Utsuite.Interpreter
