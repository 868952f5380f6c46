import Utsuite.ByteMem
import Utsuite.Rand48
import Mathlib.Data.List.FinRange

namespace Utsuite.HelloPow

open ByteWords ByteMem Rand48 List

def inputLen : Nat := 140

def outputLen : Nat := 32

def workMemorySize : Nat := 1024 * 1024

/-- `reduce_bit` folds the input onto the first `bits` bits of the output. What lies behind them
keeps its value. -/
def reduceBit (input output : Bytes) (bits : Nat) : Bytes :=
  let outputLen := bits >>> 3
  (List.range' outputLen (input.length - outputLen)).foldl
    (fun out i => out.set (i % outputLen)
      (out.getD (i % outputLen) 0 ^^^ input.getD (i % input.length) 0))
    (overwrite output 0 (input.take outputLen))

/-- The bytes of `input` rotated by `bits`. The shifts are of promoted values, so one by eight gives
zero. -/
def rotated (input : Bytes) (bits : UInt32) : Bytes :=
  let inputLen := UInt32.ofNat input.length
  let shiftBytes := bits >>> 3
  let shiftBits := bits &&& 0x7
  let rIndex := inputLen - shiftBytes
  let lIndex := (rIndex + inputLen - 1) % inputLen
  (List.range input.length).map fun i =>
    ((input.getD ((rIndex + UInt32.ofNat i) % inputLen).toNat 0).toUInt32 >>> shiftBits |||
      (input.getD ((lIndex + UInt32.ofNat i) % inputLen).toNat 0).toUInt32 <<< (8 - shiftBits)).toUInt8

def rrs (input output : Bytes) (bits : UInt32) : Bytes := overwrite output 0 (rotated input bits)

instance neZero_funcs : NeZero 16 := ⟨by decide⟩

structure FuncInfor where
  func : Fin 16 → Bytes → Bytes
  size : ∀ t m, (func t m).length = outputLen

theorem selector_lt (t : UInt8) : ((t &&& (0x0f : UInt8)) ^^^ (t >>> (4 : UInt8))).toNat < 2 ^ 4 := by
  rw [UInt8.toNat_xor]
  apply Nat.xor_lt_two_pow
  · rw [UInt8.toNat_and]
    exact Nat.and_lt_two_pow _ (by decide)
  · have := t.toNat_lt
    rw [UInt8.toNat_shiftRight, Nat.shiftRight_eq_div_pow]
    simp only [UInt8.reduceToNat, Nat.reduceMod, Nat.reducePow] at *
    omega

def selector (t : UInt8) : Fin 16 := ⟨((t &&& (0x0f : UInt8)) ^^^ (t >>> (4 : UInt8))).toNat, selector_lt t⟩

def foldByte (input : Bytes) (old : UInt8) : UInt8 := (reduceBit input [old] 8).getD 0 0

def xorBytes (a b : Bytes) : Bytes := List.zipWith (· ^^^ ·) a b

structure InitScratch where
  shiftNum : UInt8
  result : Bytes
  aRrs : Bytes
  result_length : result.length = outputLen
  aRrs_length : aRrs.length = inputLen

structure InitState where
  a : Bytes
  b : Bytes
  randSeed : Fin 4 → UInt64
  randBuffer : Fin 4 → MyRand48Data
  mem : Mem

def drawBlock (randBuffer : Fin 4 → MyRand48Data) (b : Bytes) : Bytes × (Fin 4 → MyRand48Data) :=
  (List.finRange 4).foldl
    (fun p j =>
      let d := myRand64R (p.2 j)
      (overwrite p.1 (j.val <<< 3) (leBytes 8 d.1.toNat), Function.update p.2 j d.2))
    (b, randBuffer)

def initRound (F : FuncInfor) (K : Nat) (scratch : InitScratch) (i : Nat) (s : InitState) : InitState :=
  if i % K ≠ 0 then
    let d := drawBlock s.randBuffer s.b
    let shiftNum := foldByte (leBytes 4 i) scratch.shiftNum
    let result := rrs d.1 scratch.result shiftNum.toUInt32
    { s with
      a := xorBytes s.a result, b := d.1, randBuffer := d.2
      mem := store s.mem (i <<< 5) (result.take outputLen) }
  else
    let t := selector (foldByte s.a 0)
    let shiftNum := foldByte (leBytes 4 i) 0
    let aRrs := rrs s.a scratch.aRrs shiftNum.toUInt32
    let a := F.func t (aRrs.take 32)
    let randSeed := fun k : Fin 4 => UInt64.ofNat (leValue
      (reduceBit ((a.drop (8 * k.val)).take 8) (leBytes 8 (s.randSeed k).toNat) 48))
    { s with
      a := a, randSeed := randSeed, randBuffer := fun k => mySeed48R (randSeed k)
      mem := store s.mem (i <<< 5) (a.take 32) }

def initRounds (F : FuncInfor) (K : Nat) (scratch : Nat → InitScratch) : Nat → InitState → InitState
  | 0, s => s
  | n + 1, s => initRound F K (scratch n) n (initRounds F K scratch n s)

def initWorkMemory (F : FuncInfor) (input : Bytes) (mem : Mem) (K : Nat) (b : Bytes)
    (randBuffer : Fin 4 → MyRand48Data) (scratch : Nat → InitScratch) : Mem :=
  (initRounds F K scratch (workMemorySize >>> 5)
    { a := F.func 0 input, b := b, randSeed := fun _ => 0, randBuffer := randBuffer, mem := mem }).mem

structure MixState where
  randBuffer : MyRand48Data
  r : UInt64
  b : Bytes
  mem : Mem

def mixOffset (r : UInt64) : UInt64 :=
  UInt64.ofNat (leValue (reduceBit (leBytes 8 r.toNat) (leBytes 8 0) 8)) <<< 8 + 1

def mixAddr1 (randNum r : UInt64) : Nat :=
  ((randNum + r + UInt64.ofNat workMemorySize - mixOffset r) % UInt64.ofNat workMemorySize).toNat

def mixAddr2 (randNum r : UInt64) : Nat :=
  ((randNum + r + mixOffset r) % UInt64.ofNat workMemorySize).toNat

/-- One turn of the inner loop of step 2. It exchanges two cells of the work memory and adds a byte
of `a` to both of them. -/
def mixRound (a : Bytes) (j : Nat) (s : MixState) : MixState :=
  let d := myRand48R s.randBuffer
  let addr1 := mixAddr1 d.1 s.r
  let addr2 := mixAddr2 d.1 s.r
  let t1 := s.mem addr1
  let t2 := s.mem addr2
  let x := a.getD (j &&& 0x1f) 0
  { randBuffer := d.2
    r := s.r + x.toUInt64 + t1.toUInt64 + t2.toUInt64
    b := s.b.set (j &&& 0x3f) (t1 ^^^ t2)
    mem := Function.update (Function.update s.mem addr1 (t2 ^^^ x)) addr2 (t1 ^^^ x) }

def mixRounds (a : Bytes) : Nat → MixState → MixState
  | 0, s => s
  | n + 1, s => mixRound a n (mixRounds a n s)

structure ModifyState where
  a : Bytes
  b : Bytes
  r : UInt64
  result : Bytes
  mem : Mem

def modifyRound (F : FuncInfor) (L : Nat) (aRrs : Bytes) (i : Nat) (s : ModifyState) : ModifyState :=
  let randSeed := UInt64.ofNat (leValue (reduceBit s.a (leBytes 8 0) 48))
  let m := mixRounds s.a (L <<< 6 % 2 ^ 32) { randBuffer := mySeed48R randSeed, r := s.r, b := s.b, mem := s.mem }
  let t := selector (foldByte (leBytes 8 m.r.toNat) 0)
  let a := reduceBit m.b s.a 256
  let shiftNum := foldByte (leBytes 8 (m.r + UInt64.ofNat i).toNat) 0
  let a := F.func t ((rrs a aRrs shiftNum.toUInt32).take 32)
  { a := a, b := m.b, r := m.r, result := xorBytes s.result a, mem := m.mem }

def modifyRounds (F : FuncInfor) (L : Nat) (aRrs : Nat → Bytes) : Nat → ModifyState → ModifyState
  | 0, s => s
  | n + 1, s => modifyRound F L (aRrs n) n (modifyRounds F L aRrs n s)

def modifyWorkMemory (F : FuncInfor) (mem : Mem) (L C : Nat) (result b : Bytes) (aRrs : Nat → Bytes) :
    Bytes × Mem :=
  let a := F.func 0 (load mem (workMemorySize - 32) 32)
  let r := UInt64.ofNat (leValue (reduceBit a (leBytes 8 0) 64))
  let s := modifyRounds F L aRrs C { a := a, b := b, r := r, result := overwrite result 0 a, mem := mem }
  (s.result, s.mem)

/-- Up to `d` blocks before `num` are folded into the result. The blocks read are listed beside it.
-/
def absorbBlocks (mem : Mem) (num : Nat) : Nat → Nat → Bytes → (Bool × Nat × Bytes) × List Nat
  | 0, i, result => ((false, i, result), [])
  | d + 1, i, result =>
    let result := xorBytes result (load mem (i <<< 5) 32)
    if i + 1 = num then ((true, i + 1, result), [i])
    else
      let (p, blocks) := absorbBlocks mem num d (i + 1) result
      (p, i :: blocks)

structure Batch where
  blocks : List Nat
  shiftNum : UInt8
  f : Fin 16

/-- The outer loop of step 3, which is a `while(1)` in the source. `none` stands for fuel that does
not suffice. -/
def finalRounds (F : FuncInfor) (mem : Mem) (num D : Nat) :
    Nat → Nat → Bytes → Bytes → Option (Bytes × List Batch)
  | 0, _, _, _ => none
  | fuel + 1, i, result, resultRrs =>
    let t := selector (foldByte result 0)
    let d := leValue (reduceBit result (leBytes 4 0) D) + 1
    let ((stop, i, result), blocks) := absorbBlocks mem num d i result
    let shiftNum := foldByte (leBytes 4 (i + t.val)) 0
    let resultRrs := rrs result resultRrs shiftNum.toUInt32
    if stop then some (F.func 0 (resultRrs.take 32), [⟨blocks, shiftNum, 0⟩])
    else
      (finalRounds F mem num D fuel i (F.func t (resultRrs.take 32)) resultRrs).map fun p =>
        (p.1, ⟨blocks, shiftNum, t⟩ :: p.2)

def calculateFinalResultLog (F : FuncInfor) (mem : Mem) (c : Bytes) (D : Nat) (result resultRrs : Bytes) :
    Option (Bytes × List Batch) :=
  let num := workMemorySize >>> 5 - 1
  finalRounds F mem num D num 0 (overwrite result 0 (c.take outputLen)) resultRrs

def calculateFinalResult (F : FuncInfor) (mem : Mem) (c : Bytes) (D : Nat) (result resultRrs : Bytes) :
    Option Bytes :=
  (calculateFinalResultLog F mem c D result resultRrs).map Prod.fst

/-- What `powFunction` leaves uninitialised, together with the old contents of its output buffer. -/
structure Uninitialised where
  initB : Bytes
  initB_length : initB.length = outputLen
  randBuffer : Fin 4 → MyRand48Data
  initScratch : Nat → InitScratch
  modifyB : Bytes
  modifyB_length : modifyB.length = 64
  aRrs : Nat → Bytes
  aRrs_length : ∀ i, (aRrs i).length = inputLen
  c : Bytes
  c_length : c.length = outputLen
  resultRrs : Bytes
  resultRrs_length : resultRrs.length = outputLen
  output : Bytes
  output_length : output.length = outputLen

def powFunction (F : FuncInfor) (input : Bytes) (mem : Mem) (u : Uninitialised) : Option Bytes :=
  let mem := initWorkMemory F input mem 128 u.initB u.randBuffer u.initScratch
  let (c, mem) := modifyWorkMemory F mem 4 (workMemorySize >>> 11) u.c u.modifyB u.aRrs
  calculateFinalResult F mem c 8 u.output u.resultRrs

end Utsuite.HelloPow
