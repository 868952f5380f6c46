import Utsuite.BitPack

namespace Utsuite.Equihash

open ByteWords BitPack

structure Params where
  N : Nat
  K : Nat
  K_pos : 0 < K := by decide
  N_le : N ≤ 512 := by decide
  eight_dvd : 8 ∣ N := by decide
  succ_dvd : K + 1 ∣ N := by decide
  bitLength_ge : 8 ≤ N / (K + 1) := by decide
  bitLength_le : N / (K + 1) ≤ 24 := by decide
  width_dvd : 8 ∣ 2 ^ K * (N / (K + 1) + 1) := by decide

namespace Params

variable (p : Params)

def indicesPerHashOutput : Nat := 512 / p.N

def hashOutput : Nat := p.indicesPerHashOutput * p.N / 8

def collisionBitLength : Nat := p.N / (p.K + 1)

def collisionByteLength : Nat := (p.collisionBitLength + 7) / 8

def hashLength : Nat := (p.K + 1) * p.collisionByteLength

def solutionWidth : Nat := 2 ^ p.K * (p.collisionBitLength + 1) / 8

def fullWidth : Nat := 2 * p.collisionByteLength + 4 * 2 ^ (p.K - 1)

def finalFullWidth : Nat := 2 * p.collisionByteLength + 4 * 2 ^ p.K

def truncatedWidth : Nat := max (p.hashLength + 1) (2 * p.collisionByteLength + 2 ^ (p.K - 1))

def finalTruncatedWidth : Nat := max (p.hashLength + 1) (2 * p.collisionByteLength + 2 ^ p.K)

end Params

def eh96_3 : Params where
  N := 96
  K := 3

def eh200_9 : Params where
  N := 200
  K := 9

def eh96_5 : Params where
  N := 96
  K := 5

def eh48_5 : Params where
  N := 48
  K := 5

abbrev HashFunction (p : Params) := Nat → {hash : Bytes // hash.length = p.hashOutput}

structure Expansion where
  accBits : Nat
  accValue : Nat
  j : Nat
  writes : List (Nat × UInt8)

/-- One input byte of `ExpandArray`, where `acc_value` is a `uint32_t`. The bytes written are listed
with their places. -/
def expandStep (bitLen bytePad : Nat) (s : Expansion) (b : UInt8) : Expansion :=
  let outWidth := (bitLen + 7) / 8 + bytePad
  let bitLenMask := 2 ^ bitLen - 1
  let accValue := (s.accValue <<< 8) % 2 ^ 32 ||| b.toNat
  let accBits := s.accBits + 8
  if accBits ≥ bitLen then
    let accBits := accBits - bitLen
    { accBits
      accValue
      j := s.j + outWidth
      writes := s.writes ++ ((List.range bytePad).map (fun x => (s.j + x, 0)) ++
        (List.range' bytePad (outWidth - bytePad)).map fun x =>
          (s.j + x, .ofNat ((accValue >>> (accBits + 8 * (outWidth - x - 1))) &&&
            ((bitLenMask >>> (8 * (outWidth - x - 1))) &&& 0xFF)))) }
  else
    { accBits, accValue, j := s.j, writes := s.writes }

def expandWrites (input : Bytes) (bitLen bytePad : Nat) : List (Nat × UInt8) :=
  (input.foldl (expandStep bitLen bytePad) ⟨0, 0, 0, []⟩).writes

def expandArray (input : Bytes) (bitLen bytePad : Nat) : Bytes :=
  (expandWrites input bitLen bytePad).map Prod.snd

def ExpandAsserts (inLen outLen bitLen bytePad : Nat) : Prop :=
  8 ≤ bitLen ∧ 7 + bitLen ≤ 32 ∧ outLen = 8 * ((bitLen + 7) / 8 + bytePad) * inLen / bitLen

structure Compression where
  accBits : Nat
  accValue : Nat
  input : Bytes
  out : Bytes

def compressRead (bitLen bytePad : Nat) (s : Compression) : Compression :=
  let inWidth := (bitLen + 7) / 8 + bytePad
  let bitLenMask := 2 ^ bitLen - 1
  { s with
    accValue := (List.range' bytePad (inWidth - bytePad)).foldl (fun acc x =>
      acc ||| (((s.input.getD x 0).toNat &&& ((bitLenMask >>> (8 * (inWidth - x - 1))) &&& 0xFF)) <<<
        (8 * (inWidth - x - 1)))) ((s.accValue <<< bitLen) % 2 ^ 32)
    input := s.input.drop inWidth
    accBits := s.accBits + bitLen }

def compressStep (bitLen bytePad : Nat) (s : Compression) : Compression :=
  let s := if s.accBits < 8 then compressRead bitLen bytePad s else s
  { s with
    accBits := s.accBits - 8
    out := s.out ++ [UInt8.ofNat ((s.accValue >>> (s.accBits - 8)) &&& 0xFF)] }

def compressArray (input : Bytes) (outLen bitLen bytePad : Nat) : Bytes :=
  ((compressStep bitLen bytePad)^[outLen] ⟨0, 0, input, []⟩).out

def CompressAsserts (inLen outLen bitLen bytePad : Nat) : Prop :=
  8 ≤ bitLen ∧ 7 + bitLen ≤ 32 ∧ outLen = bitLen * inLen / (8 * ((bitLen + 7) / 8 + bytePad))

def ehIndexToArray (i : Nat) : Bytes := beBytes 4 i

def arrayToEhIndex (array : Bytes) : Nat := beValue array

def pieces (width : Nat) (array : Bytes) : List Bytes :=
  (List.range (array.length / width)).map fun k => (array.drop (k * width)).take width

def indexPad (cBitLen : Nat) : Nat := 4 - (cBitLen + 1 + 7) / 8

def getIndicesFromMinimal (minimal : Bytes) (cBitLen : Nat) : List Nat :=
  (pieces 4 (expandArray minimal (cBitLen + 1) (indexPad cBitLen))).map arrayToEhIndex

def getMinimalFromIndices (indices : List Nat) (cBitLen : Nat) : Bytes :=
  let lenIndices := indices.length * 4
  compressArray (indices.flatMap ehIndexToArray) ((cBitLen + 1) * lenIndices / (8 * 4))
    (cBitLen + 1) (indexPad cBitLen)

/-- A row is modelled up to its last index, since what lies behind it is never read. -/
abbrev Row := Bytes

def hashPart (p : Params) (tmpHash : Bytes) (i : Nat) : Bytes :=
  (tmpHash.drop (i * p.N / 8)).take (p.N / 8)

def fullStepRow (hashIn : Bytes) (cBitLen i : Nat) : Row :=
  expandArray hashIn cBitLen 0 ++ ehIndexToArray i

def rowIndices (a : Row) (len lenIndices : Nat) : Bytes := (a.drop len).take lenIndices

def bytesLt (a b : Bytes) : Bool := decide (a.map UInt8.toNat < b.map UInt8.toNat)

def indicesBefore (a b : Row) (len lenIndices : Nat) : Bool :=
  bytesLt (rowIndices a len lenIndices) (rowIndices b len lenIndices)

def mergeRows (a b : Row) (len lenIndices trim : Nat) : Row :=
  List.zipWith (· ^^^ ·) ((a.take len).drop trim) ((b.take len).drop trim) ++
    if indicesBefore a b len lenIndices then
      rowIndices a len lenIndices ++ rowIndices b len lenIndices
    else
      rowIndices b len lenIndices ++ rowIndices a len lenIndices

def MergeAsserts (len lenIndices trim W WIDTH : Nat) : Prop :=
  len + lenIndices ≤ W ∧ len - trim + 2 * lenIndices ≤ WIDTH

def isZero (a : Row) (len : Nat) : Bool := (a.take len).all (· == 0)

def hasCollision (a b : Row) (l : Nat) : Bool := a.take l == b.take l

def distinctIndices (a b : Row) (len lenIndices : Nat) : Bool :=
  (pieces 4 (rowIndices a len lenIndices)).all fun x =>
    (pieces 4 (rowIndices b len lenIndices)).all fun y => x != y

def getIndices (a : Row) (len lenIndices cBitLen : Nat) : Bytes :=
  compressArray (rowIndices a len lenIndices) ((cBitLen + 1) * lenIndices / (8 * 4)) (cBitLen + 1)
    (indexPad cBitLen)

/-- One level of the verifier. It ends early with the value that is returned, and `none` stands for
an access behind `X`. -/
def checkPairs (p : Params) (hashLen lenIndices : Nat) : List Row → Except (Option Bool) (List Row)
  | [] => .ok []
  | [_] => .error none
  | a :: b :: X =>
    if !hasCollision a b p.collisionByteLength then .error (some false)
    else if indicesBefore b a hashLen lenIndices then .error (some false)
    else if !distinctIndices a b hashLen lenIndices then .error (some false)
    else do
      let Xc ← checkPairs p hashLen lenIndices X
      pure (mergeRows a b hashLen lenIndices p.collisionByteLength :: Xc)

/-- The levels of the verifier, each of which halves `X`. `none` stands also for the failed
assertion at the end. -/
def checkLevels (p : Params) : Nat → Nat → Nat → List Row → Option Bool
  | 0, _, _, _ => none
  | rounds + 1, hashLen, lenIndices, X =>
    if X.length > 1 then
      match checkPairs p hashLen lenIndices X with
      | .error returned => returned
      | .ok Xc =>
        checkLevels p rounds (hashLen - p.collisionByteLength) (2 * lenIndices) Xc
    else
      match X with
      | [row] => some (isZero row hashLen)
      | _ => none

def indexRow (p : Params) (generateHash : HashFunction p) (i : Nat) : Row :=
  fullStepRow (hashPart p (generateHash (i / p.indicesPerHashOutput)).val
    (i % p.indicesPerHashOutput)) p.collisionBitLength i

def isValidSolution (p : Params) (generateHash : HashFunction p) (soln : Bytes) : Option Bool :=
  if soln.length ≠ p.solutionWidth then some false
  else
    let X := (getIndicesFromMinimal soln p.collisionBitLength).map (indexRow p generateHash)
    checkLevels p X.length p.hashLength 4 X

end Utsuite.Equihash
