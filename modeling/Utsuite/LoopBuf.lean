import Utsuite.RingSpan

namespace Utsuite.LoopBuf

open ByteWords ByteMem

def INTERVAL_SPACE : Int := 16
def LEN_INT : Int := 4
def LOOP_PKT_HEAD_LEN : Int := 8
def INT_MAX : Int := 2147483647

inductive Fault
  | intOverflow
  | outOfRange
  deriving DecidableEq

def int (v : Int) : Except Fault Int :=
  if -2147483648 ≤ v ∧ v ≤ INT_MAX then .ok v else .error .intOverflow

inductive Notice
  | runError
  | queueShareMemError (nFullDataSize nDataBufSize : Int)
  deriving DecidableEq

structure CLoopBuf where
  m_nBufSize : Int
  m_pShmBuf : Mem
  nHeadPos : Int
  nTailPos : Int
  nSize : Int
  nQueueNo : Int
  m_dwLogPushZero : UInt32
  m_dwLogPopZero : UInt32
  notices : List Notice

def init (nBufSize : Int) : CLoopBuf where
  m_nBufSize := nBufSize
  m_pShmBuf := fun _ => 0
  nHeadPos := 0
  nTailPos := 0
  nSize := nBufSize
  nQueueNo := 1
  m_dwLogPushZero := 0
  m_dwLogPopZero := 0
  notices := []

def copyIn (s : CLoopBuf) (pos : Int) (data : Bytes) : Except Fault CLoopBuf :=
  if 0 ≤ pos ∧ pos + data.length ≤ s.m_nBufSize then
    .ok { s with m_pShmBuf := store s.m_pShmBuf pos.toNat data }
  else .error .outOfRange

def copyOut (s : CLoopBuf) (pos len : Int) : Except Fault Bytes :=
  if 0 ≤ pos ∧ 0 ≤ len ∧ pos + len ≤ s.m_nBufSize then
    .ok (load s.m_pShmBuf pos.toNat len.toNat)
  else .error .outOfRange

def isPushSizeEnough (s : CLoopBuf) (nHeadPos nDataLen : Int) : Except Fault Bool := do
  if nHeadPos ≤ s.nTailPos then
    let nTempSize ← int (s.m_nBufSize - s.nTailPos)
    if nTempSize ≥ nDataLen then
      pure true
    else
      let nLeftSize ← int (nDataLen - nTempSize)
      let nLimit ← int (nHeadPos - INTERVAL_SPACE)
      pure (decide (nLimit ≥ nLeftSize))
  else
    let nGap ← int (nHeadPos - s.nTailPos)
    let nNeeded ← int (nDataLen + INTERVAL_SPACE)
    pure (decide (nGap > nNeeded))

def pushData (nHeadPos : Int) (lpData : Bytes) (s : CLoopBuf) : Except Fault CLoopBuf := do
  let nDataLen : Int := lpData.length
  if nHeadPos ≤ s.nTailPos then
    let nTempSize ← int (s.m_nBufSize - s.nTailPos)
    if nTempSize ≥ nDataLen then
      let s ← copyIn s s.nTailPos lpData
      let nTailPos ← int (s.nTailPos + nDataLen)
      pure { s with nTailPos }
    else
      let nLeftSize ← int (nDataLen - nTempSize)
      let s ← copyIn s s.nTailPos (lpData.take nTempSize.toNat)
      let s ← copyIn s 0 (lpData.drop nTempSize.toNat)
      pure { s with nTailPos := nLeftSize }
  else
    let s ← copyIn s s.nTailPos lpData
    let nTailPos ← int (s.nTailPos + nDataLen)
    pure { s with nTailPos }

def isPopSizeEnough (s : CLoopBuf) (nTailPos : Int) : Except Fault (Bool × Int) := do
  if s.nHeadPos ≤ nTailPos then
    let nLenEnd ← int (s.nHeadPos + LEN_INT)
    if nLenEnd ≤ nTailPos then
      let word ← copyOut s s.nHeadPos LEN_INT
      let nFullDataSize := signed 32 (leValue word)
      let nHeld ← int (nTailPos - s.nHeadPos)
      pure (decide (nHeld ≥ nFullDataSize), nFullDataSize)
    else
      pure (false, 0)
  else
    let nTempLen ← int (s.m_nBufSize - s.nHeadPos)
    let nFullDataSize ←
      if nTempLen ≥ LEN_INT then do
        let word ← copyOut s s.nHeadPos LEN_INT
        pure (signed 32 (leValue word))
      else do
        let nHeld ← int (nTempLen + nTailPos)
        if nHeld ≥ LEN_INT then do
          let high ← copyOut s s.nHeadPos nTempLen
          let low ← copyOut s 0 (LEN_INT - nTempLen)
          pure (signed 32 (leValue (high ++ low)))
        else
          pure 0
    if nFullDataSize > 0 then
      let nHeld ← int (nTempLen + nTailPos)
      pure (decide (nHeld ≥ nFullDataSize), nFullDataSize)
    else
      pure (false, nFullDataSize)

def popData (nTailPos nDataSize : Int) (s : CLoopBuf) : Except Fault (Bytes × CLoopBuf) := do
  if s.nHeadPos ≤ nTailPos then
    let data ← copyOut s s.nHeadPos nDataSize
    let nHeadPos ← int (s.nHeadPos + nDataSize)
    pure (data, { s with nHeadPos })
  else
    let nTempSize ← int (s.m_nBufSize - s.nHeadPos)
    if nTempSize ≥ nDataSize then
      let data ← copyOut s s.nHeadPos nDataSize
      let nHeadPos ← int (s.nHeadPos + nDataSize)
      pure (data, { s with nHeadPos })
    else
      let high ← copyOut s s.nHeadPos nTempSize
      let nLeftSize ← int (nDataSize - nTempSize)
      let low ← copyOut s 0 nLeftSize
      pure (high ++ low, { s with nHeadPos := nLeftSize })

def setZero (s : CLoopBuf) : CLoopBuf :=
  { s with nHeadPos := 0, nTailPos := 0, nSize := s.m_nBufSize, nQueueNo := 1 }

def syncWord : Bytes := [0x40, 0x40, 0x40, 0x40]

def pktHead (nFullDataSize : Int) : Bytes := leBytes 4 nFullDataSize.toNat ++ syncWord

structure Returned where
  ret : Int
  lpData : Bytes
  deriving DecidableEq

/-- What both forms of `PushInNoblock` do once the length of the payload is known. -/
def pushParts (nPayload : Int) (parts : List Bytes) (s : CLoopBuf) :
    Except Fault (Returned × CLoopBuf) := do
  let nFullDataSize ← int (nPayload + LOOP_PKT_HEAD_LEN)
  let nHeadPos := s.nHeadPos
  let bEnough ← isPushSizeEnough s nHeadPos nFullDataSize
  if bEnough = false then
    pure (⟨0, []⟩, { s with m_dwLogPushZero := s.m_dwLogPushZero + 1 })
  else
    let s ← (pktHead nFullDataSize :: parts).foldlM (fun s part => pushData nHeadPos part s) s
    pure (⟨nPayload, []⟩, s)

def pushInNoblock (lpData : Bytes) : CLoopBuf → Except Fault (Returned × CLoopBuf) :=
  pushParts lpData.length [lpData]

def pushInNoblockParts (lpData packet : Bytes) (s : CLoopBuf) :
    Except Fault (Returned × CLoopBuf) := do
  let nPayload ← int (lpData.length + packet.length)
  pushParts nPayload [lpData, packet] s

def popOut (nDataBufSize : Int) (s : CLoopBuf) : Except Fault (Returned × CLoopBuf) := do
  let nTailPos := s.nTailPos
  let (bEnough, nFullDataSize) ← isPopSizeEnough s nTailPos
  if bEnough = false then
    let s :=
      if nFullDataSize > 1024 ∧ (nFullDataSize > nDataBufSize ∨ nFullDataSize < 0) then
        { setZero s with
          notices := s.notices ++ [.queueShareMemError nFullDataSize nDataBufSize] }
      else s
    pure (⟨0, []⟩, { s with m_dwLogPopZero := s.m_dwLogPopZero + 1 })
  else
    let (popPktHead, s) ← popData nTailPos LOOP_PKT_HEAD_LEN s
    if popPktHead.drop 4 ≠ syncWord then
      pure (⟨0, []⟩, { setZero s with notices := s.notices ++ [.runError] })
    else
      let nDataSize ← int (nFullDataSize - LOOP_PKT_HEAD_LEN)
      if nDataBufSize < nDataSize then
        pure (⟨-1, []⟩, s)
      else
        let (data, s) ← popData nTailPos nDataSize s
        pure (⟨nDataSize, data⟩, s)

end Utsuite.LoopBuf
