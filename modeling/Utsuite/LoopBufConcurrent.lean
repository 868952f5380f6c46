import Utsuite.Hoare
import Utsuite.Interleaving
import Utsuite.LoopBufQueue

namespace Utsuite.LoopBufConcurrent

open ByteWords ByteMem RingSpan Interleaving Protocol Transitions LoopBufQueue List
open Hoare (except_bind_eq_ok_iff)
open LoopBuf hiding isPushSizeEnough pushData isPopSizeEnough popData pushInNoblock pushInNoblockParts popOut

structure Shared where
  ring : CLoopBuf
  produced : Bytes
  consumed : Bytes
  pushed : List Bytes
  popped : List Bytes

abbrev Code := Prog Shared Fault

def readHeadPos : Code Int := .read (·.ring.nHeadPos)

def readTailPos : Code Int := .read (·.ring.nTailPos)

def bufSize : Code Int := .read (·.ring.m_nBufSize)

def evalInt (v : Int) : Code Int := .ofExcept (int v)

def isPushSizeEnough (nHeadPos nDataLen : Int) : Code Bool := do
  let m_nBufSize ← bufSize
  let tail₁ ← readTailPos
  if nHeadPos ≤ tail₁ then
    let tail₂ ← readTailPos
    let nRest ← evalInt (m_nBufSize - tail₂)
    if nRest ≥ nDataLen then
      pure true
    else
      let tail₃ ← readTailPos
      let nTempSize ← evalInt (m_nBufSize - tail₃)
      let nLeftSize ← evalInt (nDataLen - nTempSize)
      let nLimit ← evalInt (nHeadPos - INTERVAL_SPACE)
      pure (decide (nLimit ≥ nLeftSize))
  else
    let tail₂ ← readTailPos
    let nGap ← evalInt (nHeadPos - tail₂)
    let nNeeded ← evalInt (nDataLen + INTERVAL_SPACE)
    pure (decide (nGap > nNeeded))

def pushData (nHeadPos : Int) (lpData : Bytes) (started : Option Bytes) : Code Unit :=
  .atomic fun s => do
    let ring ← LoopBuf.pushData nHeadPos lpData s.ring
    pure ((), { s with
      ring
      produced := s.produced ++ lpData
      pushed := s.pushed ++ started.toList })

def copyHead (len : Int) : Code Bytes :=
  .atomic fun s => do
    let bytes ← copyOut s.ring s.ring.nHeadPos len
    pure (bytes, s)

def copyStart (len : Int) : Code Bytes :=
  .atomic fun s => do
    let bytes ← copyOut s.ring 0 len
    pure (bytes, s)

/-- The length word where the unread bytes go around the end of the ring. It is 0 if the word is not
there yet. -/
def wrappedLength (m_nBufSize nTailPos nRest : Int) : Code Int := do
  if nRest ≥ LEN_INT then
    let word ← copyHead LEN_INT
    pure (signed 32 (leValue word))
  else
    let head₁ ← readHeadPos
    let nLeft ← evalInt (m_nBufSize - head₁)
    let nHeld ← evalInt (nLeft + nTailPos)
    if nHeld ≥ LEN_INT then
      let head₂ ← readHeadPos
      let nTempLen ← evalInt (m_nBufSize - head₂)
      let high ← copyHead nTempLen
      let low ← copyStart (LEN_INT - nTempLen)
      pure (signed 32 (leValue (high ++ low)))
    else
      pure 0

def isPopSizeEnough (nTailPos : Int) : Code (Bool × Int) := do
  let m_nBufSize ← bufSize
  let head₁ ← readHeadPos
  if head₁ ≤ nTailPos then
    let head₂ ← readHeadPos
    let nLenEnd ← evalInt (head₂ + LEN_INT)
    if nLenEnd ≤ nTailPos then
      let word ← copyHead LEN_INT
      let nFullDataSize := signed 32 (leValue word)
      let head₃ ← readHeadPos
      let nHeld ← evalInt (nTailPos - head₃)
      pure (decide (nHeld ≥ nFullDataSize), nFullDataSize)
    else
      pure (false, 0)
  else
    let head₂ ← readHeadPos
    let nRest ← evalInt (m_nBufSize - head₂)
    let nFullDataSize ← wrappedLength m_nBufSize nTailPos nRest
    if nFullDataSize > 0 then
      let head₃ ← readHeadPos
      let nLeft ← evalInt (m_nBufSize - head₃)
      let nHeld ← evalInt (nLeft + nTailPos)
      pure (decide (nHeld ≥ nFullDataSize), nFullDataSize)
    else
      pure (false, nFullDataSize)

def popData (nTailPos nDataSize : Int) (isPacket : Bool) : Code Bytes :=
  .atomic fun s => do
    let (data, ring) ← LoopBuf.popData nTailPos nDataSize s.ring
    pure (data, { s with
      ring
      consumed := s.consumed ++ data
      popped := if isPacket then s.popped ++ [data] else s.popped })

def reset (notice : Notice) : Code Unit :=
  .atomic fun s => .ok ((), { s with
    ring := { setZero s.ring with notices := s.ring.notices ++ [notice] } })

def countPushZero : Code Unit :=
  .atomic fun s => .ok ((), { s with ring := refused s.ring })

def countPopZero : Code Unit :=
  .atomic fun s => .ok ((), { s with ring := starved s.ring })

def pushParts (nHeadPos : Int) : List Bytes → Code Unit
  | [] => pure ()
  | part :: parts => do
    pushData nHeadPos part none
    pushParts nHeadPos parts

def payloadSize (parts : List Bytes) : Except Fault Int :=
  parts.foldlM (fun n part => int (n + part.length)) 0

def pushIn (parts : List Bytes) : Code Returned := do
  let nPayload ← Prog.ofExcept (payloadSize parts)
  let nFullDataSize ← evalInt (nPayload + LOOP_PKT_HEAD_LEN)
  let nHeadPos ← readHeadPos
  let bEnough ← isPushSizeEnough nHeadPos nFullDataSize
  if bEnough = false then
    countPushZero
    pure ⟨0, []⟩
  else
    pushData nHeadPos (pktHead nFullDataSize) (some parts.flatten)
    pushParts nHeadPos parts
    pure ⟨nPayload, []⟩

def pushInNoblock (lpData : Bytes) : Code Returned := pushIn [lpData]

def pushInNoblockParts (lpData packet : Bytes) : Code Returned := pushIn [lpData, packet]

/-- The end of `PopOut` when no whole packet is there. A length that looks damaged empties the ring.
-/
def popNothing (nDataBufSize nFullDataSize : Int) : Code Returned := do
  if nFullDataSize > 1024 ∧ (nFullDataSize > nDataBufSize ∨ nFullDataSize < 0) then
    reset (.queueShareMemError nFullDataSize nDataBufSize)
    countPopZero
    pure ⟨0, []⟩
  else
    countPopZero
    pure ⟨0, []⟩

def popPacket (nDataBufSize nTailPos nFullDataSize : Int) : Code Returned := do
  let popPktHead ← popData nTailPos LOOP_PKT_HEAD_LEN false
  if popPktHead.drop 4 ≠ syncWord then
    reset .runError
    pure ⟨0, []⟩
  else
    let nDataSize ← evalInt (nFullDataSize - LOOP_PKT_HEAD_LEN)
    if nDataBufSize < nDataSize then
      pure ⟨-1, []⟩
    else
      let data ← popData nTailPos nDataSize true
      pure ⟨nDataSize, data⟩

def popOut (nDataBufSize : Int) : Code Returned := do
  let nTailPos ← readTailPos
  let (bEnough, nFullDataSize) ← isPopSizeEnough nTailPos
  if bEnough = false then
    popNothing nDataBufSize nFullDataSize
  else
    popPacket nDataBufSize nTailPos nFullDataSize

inductive Call
  | pushInNoblock (lpData : Bytes)
  | pushInNoblockParts (lpData packet : Bytes)
  | popOut
  deriving DecidableEq

/-- The calls of the two threads. The producer is on the left and the consumer is on the right. -/
def calls (nDataBufSize : Int) : Calls Shared Fault Returned Call where
  side
    | .popOut => .right
    | _ => .left
  body
    | .pushInNoblock lpData => pushInNoblock lpData
    | .pushInNoblockParts lpData packet => pushInNoblockParts lpData packet
    | .popOut => popOut nDataBufSize

def start (nBufSize : Int) : Shared := ⟨init nBufSize, [], [], [], []⟩

def queue (nBufSize nDataBufSize : Int) : System (Config Shared Fault Returned) (Label Call) :=
  threads (calls nDataBufSize) {start nBufSize}

def payload : Call → Bytes
  | .pushInNoblock lpData => lpData
  | .pushInNoblockParts lpData packet => lpData ++ packet
  | .popOut => []

def Admissible (nDataBufSize : Int) (call : Call) : Prop :=
  ((payload call).length : Int) + 8 ≤ 2147483647 ∧ (payload call).length ≤ nDataBufSize

section

/-- Since the producer read the head `h`, the consumer has moved it on, and at most up to the tail.
-/
def Behind (h : Int) (s : CLoopBuf) : Prop :=
  0 ≤ h ∧ h ≤ s.m_nBufSize ∧
    if h ≤ s.nTailPos then h ≤ s.nHeadPos ∧ s.nHeadPos ≤ s.nTailPos
    else h ≤ s.nHeadPos ∨ s.nHeadPos ≤ s.nTailPos

def RoomBy (h : Int) (s : CLoopBuf) (n : Nat) : Prop :=
  Fits s.m_nBufSize.toNat h.toNat s.nTailPos.toNat n

variable {h : Int} {s : CLoopBuf} {n : Nat} {data : Bytes}

theorem behind_self (hv : Valid s) : Behind s.nHeadPos s := by
  obtain ⟨-, hh0, hh, -, -⟩ := hv.toBounded
  refine ⟨hh0, hh, ?_⟩
  split
  · next hle => exact ⟨le_rfl, hle⟩
  · exact .inl le_rfl

theorem Behind.room (hv : Valid s) (hb : Behind h s) (hroom : RoomBy h s n) : Room s n := by
  obtain ⟨-, hh0, hh, ht0, ht⟩ := hv.toBounded
  obtain ⟨h0, hsize, hpos⟩ := hb
  simp only [RoomBy, Room, Fits] at *
  split at hpos <;> split at hroom <;> split <;> omega

theorem Behind.writeTail_eq (hv : Valid s) (hb : Behind h s) (hroom : RoomBy h s n) :
    writeTail s.m_nBufSize.toNat s.nHeadPos.toNat s.nTailPos.toNat n =
      writeTail s.m_nBufSize.toNat h.toNat s.nTailPos.toNat n := by
  obtain ⟨-, hh0, hh, ht0, ht⟩ := hv.toBounded
  obtain ⟨h0, hsize, hpos⟩ := hb
  simp only [RoomBy, Fits, writeTail] at *
  split at hpos <;> split at hroom <;> split <;> split <;> omega

theorem Behind.pushData_eq (hv : Valid s) (hb : Behind h s) (hroom : RoomBy h s data.length) :
    LoopBuf.pushData h data s = pure (written s data) := by
  rw [← LoopBufQueue.pushData_eq hv.toBounded (hb.room hv hroom)]
  obtain ⟨hmax, hh0, hh, ht0, ht⟩ := hv.toBounded
  obtain ⟨h0, hsize, hpos⟩ := hb
  by_cases hle : h ≤ s.nTailPos
  · rw [if_pos hle] at hpos
    simp [LoopBuf.pushData, hle, hpos.2]
  · by_cases hwent : s.nHeadPos ≤ s.nTailPos
    · rw [RoomBy, Fits, if_neg (by omega)] at hroom
      have hfits : s.m_nBufSize - s.nTailPos ≥ data.length := by omega
      simp only [LoopBuf.pushData, hle, hwent, if_true, if_false]
      rw [int_eq (by omega), pure_bind, if_pos hfits]
    · simp [LoopBuf.pushData, hle, hwent]

theorem Behind.written (hv : Valid s) (hb : Behind h s) (hroom : RoomBy h s data.length) :
    Behind h (written s data) := by
  have htail := hb.writeTail_eq hv hroom
  obtain ⟨-, hh0, hh, ht0, ht⟩ := hv.toBounded
  obtain ⟨h0, hsize, hpos⟩ := hb
  refine ⟨h0, hsize, ?_⟩
  simp only [LoopBufQueue.written, htail]
  simp only [RoomBy, Fits, writeTail] at *
  split at hpos <;> split at hroom <;> split <;> split <;> omega

theorem RoomBy.written (hv : Valid s) (hb : Behind h s) (hroom : RoomBy h s (data.length + n)) :
    RoomBy h (LoopBufQueue.written s data) n := by
  have hnow : RoomBy h s data.length := Fits.mono hroom (Nat.le_add_right _ _)
  have hrest := fits_writeTail hroom
  rw [← hb.writeTail_eq hv hnow] at hrest
  simpa only [RoomBy, LoopBufQueue.written, Int.toNat_natCast] using hrest

end

/-- What the consumer may do to the ring: bytes go off at its head, and nothing else changes. -/
structure Taken (s s' : CLoopBuf) (xs : Bytes) : Prop where
  size_eq : s'.m_nBufSize = s.m_nBufSize
  mem_eq : s'.m_pShmBuf = s.m_pShmBuf
  tail_eq : s'.nTailPos = s.nTailPos
  notices_eq : s'.notices = s.notices
  head_eq : s'.nHeadPos = (advanced s xs.length).nHeadPos
  unread_eq : unread s = xs ++ unread s'

theorem Taken.valid (h : Taken s s' xs) (hv : Valid s) : Valid s' := by
  have hlen : xs.length ≤ (unread s).length := by
    rw [h.unread_eq, length_append]
    omega
  obtain ⟨⟨hsize, hh0, hh, ht0, ht⟩, hwrapped⟩ := advanced_valid hv hlen
  obtain ⟨hsz, -, htail, -, hhead, -⟩ := h
  exact ⟨⟨hsz ▸ hsize, hhead ▸ hh0, hhead ▸ hsz ▸ hh, htail ▸ ht0, hsz ▸ htail ▸ ht⟩,
    hhead ▸ htail ▸ hwrapped⟩

theorem Behind.taken (hv : Valid s) (hb : Behind h s) (ht : Taken s s' xs) : Behind h s' := by
  have hlen : xs.length ≤ (unread s).length := by
    rw [ht.unread_eq, length_append]
    omega
  obtain ⟨hsz, -, htail, -, hhead, -⟩ := ht
  obtain ⟨-, hh0, hh, ht0, htl⟩ := hv.toBounded
  obtain ⟨h0, hsize, hpos⟩ := hb
  rw [unread, span_length] at hlen
  simp only [advanced, readHead] at hhead
  refine ⟨h0, hsz ▸ hsize, ?_⟩
  rw [htail]
  split at hpos <;> split at hlen <;> split at hhead <;> split <;> omega

section

-- The ring `r` is the one whose tail was read; only pushes have led to the ring of now.
variable {r s : CLoopBuf} {more xs ys : Bytes}

theorem Appended.later (hv : Valid r) (h : Appended r s more) :
    Later r.nHeadPos.toNat r.nTailPos.toNat s.nTailPos.toNat := by
  have hlen : (unread r).length ≤ (unread s).length := by
    rw [h.unread_eq, length_append]
    omega
  have hfirst := fun hzero => (h.untouched 0 hzero).1
  obtain ⟨⟨hsz, hh0', hh', ht0', ht'⟩, hwrapped'⟩ := h.valid hv
  obtain ⟨⟨hsize, hh0, hh, ht0, ht⟩, hwrapped⟩ := hv
  have hhead := h.head_eq
  have hsize' := h.size_eq
  simp only [unread, span_length, UnreadAt, InSpan] at hlen hfirst
  rw [Later]
  split
  · next hle =>
      rw [if_pos hle] at hlen
      split at hlen <;> omega
  · next hle =>
      rw [if_neg hle] at hlen hfirst
      have hzero := hfirst (.inr (by omega))
      split at hzero <;> split at hlen <;> omega

theorem front_le (hfront : unread r = xs ++ ys) : xs.length ≤ (unread r).length := by
  rw [hfront, length_append]
  exact Nat.le_add_right _ _

theorem popData_stale (hv : Valid r) (h : Appended r s more) (hfront : unread r = xs ++ ys) :
    LoopBuf.popData r.nTailPos xs.length s = pure (xs, advanced s xs.length) ∧
      Taken s (advanced s xs.length) xs := by
  have hunread : unread s = xs ++ (ys ++ more) := by
    rw [h.unread_eq, hfront, append_assoc]
  obtain ⟨hpop, -, hrest⟩ := popData_spec (h.valid hv) hunread
  refine ⟨?_, rfl, rfl, rfl, rfl, rfl, by rw [hrest, hunread]⟩
  rw [← hpop]
  have hlen := front_le hfront
  have hlater := Appended.later hv h
  obtain ⟨hsize, hh0, hh, ht0, ht⟩ := hv.toBounded
  obtain ⟨-, -, -, ht0', ht'⟩ := h.bounded
  have hhead := h.head_eq
  have hsize' := h.size_eq
  rw [unread, span_length] at hlen
  by_cases hle : r.nHeadPos ≤ r.nTailPos
  · rw [if_pos (by omega)] at hlen
    have hrest : int (s.m_nBufSize - s.nHeadPos) = pure (s.m_nBufSize - s.nHeadPos) :=
      int_eq (by omega)
    have hfits : s.m_nBufSize - s.nHeadPos ≥ xs.length := by omega
    rw [LoopBuf.popData, if_pos (by omega), LoopBuf.popData]
    by_cases hnow : s.nHeadPos ≤ s.nTailPos
    · rw [if_pos hnow]
    · rw [if_neg hnow, hrest, pure_bind, if_pos hfits]
  · rw [Later, if_neg (by omega)] at hlater
    rw [LoopBuf.popData, if_neg (by omega), LoopBuf.popData, if_neg (by omega)]

theorem Appended.advanced (hv : Valid r) (h : Appended r s more) (hfront : unread r = xs ++ ys) :
    Valid (advanced r xs.length) ∧ unread (advanced r xs.length) = ys ∧
      Appended (advanced r xs.length) (advanced s xs.length) more := by
  have hunread : unread s = xs ++ (ys ++ more) := by
    rw [h.unread_eq, hfront, append_assoc]
  obtain ⟨-, hvr, hrest⟩ := popData_spec hv hfront
  obtain ⟨-, hvs, hrest'⟩ := popData_spec (h.valid hv) hunread
  have hlen := front_le hfront
  have hlater := Appended.later hv h
  have hh := Int.toNat_le_toNat hv.head_le
  have ht := Int.toNat_le_toNat hv.tail_le
  have hheads : readHead r.m_nBufSize.toNat s.nHeadPos.toNat s.nTailPos.toNat xs.length =
      readHead r.m_nBufSize.toNat r.nHeadPos.toNat r.nTailPos.toNat xs.length := by
    rw [h.head_eq]
    exact readHead_later hlater ht hlen
  refine ⟨hvr, hrest, hvs.toBounded, fun _ => hvs.wrapped, by rw [hrest', hrest], fun i hi => ?_, ?_, h.size_eq, h.notices_eq⟩
  · simp only [UnreadAt, LoopBufQueue.advanced, Int.toNat_natCast, h.size_eq, hheads] at hi ⊢
    obtain ⟨-, hmem⟩ := h.untouched i (inSpan_of_readHead hh hlen hi)
    exact ⟨inSpan_readHead_later hlater hh ht hlen hi, hmem⟩
  · simp only [LoopBufQueue.advanced, h.size_eq, hheads]

end

theorem eq_of_int (h : int v = .ok w) : w = v := by
  rw [int] at h
  split at h
  · exact (Except.ok.inj h).symm
  · cases h

section

variable {T : Protocol Shared} {P : Shared → Prop}

theorem yields_evalInt (h : int v = .ok w) : T.Yields P (evalInt v) w :=
  .ofExcept h

/-- The check gives what it would give alone, since of the moving positions it reads only the
producer's own. -/
theorem yields_isPushSizeEnough (htail : ∀ s, T.inv s → P s → s.ring.nTailPos = r.nTailPos)
    (hsize : ∀ s, T.inv s → P s → s.ring.m_nBufSize = r.m_nBufSize)
    (heq : LoopBuf.isPushSizeEnough r h n = .ok bEnough) :
    T.Yields P (isPushSizeEnough h n) bEnough := by
  refine (Yields.read hsize).bind ((Yields.read htail).bind ?_)
  rw [LoopBuf.isPushSizeEnough] at heq
  by_cases hle : h ≤ r.nTailPos
  · rw [if_pos hle] at heq ⊢
    obtain ⟨nRest, hrest, heq⟩ := except_bind_eq_ok_iff.mp heq
    refine (Yields.read htail).bind ((yields_evalInt hrest).bind ?_)
    by_cases hfits : nRest ≥ n
    · rw [if_pos hfits] at heq ⊢
      exact Except.ok.inj heq
    · rw [if_neg hfits] at heq ⊢
      obtain ⟨nLeft, hleft, heq⟩ := except_bind_eq_ok_iff.mp heq
      obtain ⟨nLimit, hlimit, heq⟩ := except_bind_eq_ok_iff.mp heq
      refine (Yields.read htail).bind ((yields_evalInt hrest).bind ?_)
      refine (yields_evalInt hleft).bind ((yields_evalInt hlimit).bind ?_)
      exact Except.ok.inj heq
  · rw [if_neg hle] at heq ⊢
    obtain ⟨nGap, hgap, heq⟩ := except_bind_eq_ok_iff.mp heq
    obtain ⟨nNeeded, hneeded, heq⟩ := except_bind_eq_ok_iff.mp heq
    refine (Yields.read htail).bind ((yields_evalInt hgap).bind ?_)
    refine (yields_evalInt hneeded).bind ?_
    exact Except.ok.inj heq

theorem copyOut_stale (h : Appended r s more)
    (hspan : ∀ i, pos.toNat ≤ i → i < pos.toNat + len.toNat → UnreadAt r i) :
    copyOut s pos len = copyOut r pos len := by
  have hload : load s.m_pShmBuf pos.toNat len.toNat = load r.m_pShmBuf pos.toNat len.toNat :=
    load_congr fun i hi hi' => (h.untouched i (hspan i hi hi')).2
  rw [copyOut, copyOut, h.size_eq, hload]

variable {r : CLoopBuf} (hP : ∀ s, T.inv s → P s → ∃ more, Appended r s.ring more)

include hP

theorem yields_head : T.Yields P readHeadPos r.nHeadPos :=
  .read fun s hs hp => (hP s hs hp).elim fun _ h => h.head_eq

theorem yields_copyHead
    (hspan : ∀ i, r.nHeadPos.toNat ≤ i → i < r.nHeadPos.toNat + len.toNat → UnreadAt r i)
    (heq : copyOut r r.nHeadPos len = .ok bytes) : T.Yields P (copyHead len) bytes := by
  refine .atomic fun s hs hp => ?_
  obtain ⟨more, h⟩ := hP s hs hp
  rw [h.head_eq, copyOut_stale h hspan, heq]
  rfl

theorem yields_copyStart (hspan : ∀ i, i < len.toNat → UnreadAt r i)
    (heq : copyOut r 0 len = .ok bytes) : T.Yields P (copyStart len) bytes := by
  refine .atomic fun s hs hp => ?_
  obtain ⟨more, h⟩ := hP s hs hp
  rw [copyOut_stale h fun i _ hi => hspan i (by omega), heq]
  rfl

/-- The check gives what it would give alone, since it reads the consumer's own position and bytes
that stay. -/
theorem yields_isPopSizeEnough (hv : Valid r) (heq : LoopBuf.isPopSizeEnough r r.nTailPos = .ok v) :
    T.Yields P (isPopSizeEnough r.nTailPos) v := by
  have hsize : ∀ s, T.inv s → P s → s.ring.m_nBufSize = r.m_nBufSize :=
    fun s hs hp => (hP s hs hp).elim fun _ h => h.size_eq
  have hhead := yields_head hP
  obtain ⟨-, hh0, hh, ht0, ht⟩ := hv.toBounded
  have hfour : LEN_INT = 4 := rfl
  refine (Yields.read hsize).bind (hhead.bind ?_)
  rw [LoopBuf.isPopSizeEnough] at heq
  by_cases hle : r.nHeadPos ≤ r.nTailPos
  · rw [if_pos hle] at heq ⊢
    obtain ⟨nLenEnd, hend, heq⟩ := except_bind_eq_ok_iff.mp heq
    refine hhead.bind ((yields_evalInt hend).bind ?_)
    by_cases hword : nLenEnd ≤ r.nTailPos
    · rw [if_pos hword] at heq ⊢
      obtain ⟨word, hcopy, heq⟩ := except_bind_eq_ok_iff.mp heq
      obtain ⟨nHeld, hheld, heq⟩ := except_bind_eq_ok_iff.mp heq
      have hlast : nLenEnd = r.nHeadPos + LEN_INT := eq_of_int hend
      refine (yields_copyHead hP (fun i hi hi' => ?_) hcopy).bind ?_
      · rw [UnreadAt, InSpan, if_pos (by omega)]
        omega
      · refine hhead.bind ((yields_evalInt hheld).bind ?_)
        exact Except.ok.inj heq
    · rw [if_neg hword] at heq ⊢
      exact Except.ok.inj heq
  · rw [if_neg hle] at heq ⊢
    obtain ⟨nRest, hrest, heq⟩ := except_bind_eq_ok_iff.mp heq
    have hrest' : nRest = r.m_nBufSize - r.nHeadPos := eq_of_int hrest
    suffices hlength : ∃ nFullDataSize,
        T.Yields P (wrappedLength r.m_nBufSize r.nTailPos nRest) nFullDataSize ∧
        (if nFullDataSize > 0 then do
          let nHeld ← int (nRest + r.nTailPos)
          pure (decide (nHeld ≥ nFullDataSize), nFullDataSize)
        else pure (false, nFullDataSize)) = .ok v by
      obtain ⟨nFullDataSize, hlength, heq⟩ := hlength
      refine hhead.bind ((yields_evalInt hrest).bind (hlength.bind ?_))
      by_cases hpos : nFullDataSize > 0
      · rw [if_pos hpos] at heq ⊢
        obtain ⟨nHeld, hheld, heq⟩ := except_bind_eq_ok_iff.mp heq
        refine hhead.bind ((yields_evalInt hrest).bind ?_)
        exact (yields_evalInt hheld).bind (Except.ok.inj heq)
      · rw [if_neg hpos] at heq ⊢
        exact Except.ok.inj heq
    simp only [wrappedLength]
    by_cases hfits : nRest ≥ LEN_INT
    · simp only [if_pos hfits] at heq ⊢
      obtain ⟨word, hcopy, heq⟩ := except_bind_eq_ok_iff.mp heq
      refine ⟨_, (yields_copyHead hP (fun i hi hi' => ?_) hcopy).bind rfl, heq⟩
      rw [UnreadAt, InSpan, if_neg (by omega)]
      omega
    · simp only [if_neg hfits] at heq ⊢
      obtain ⟨nHeld, hheld, heq⟩ := except_bind_eq_ok_iff.mp heq
      have hheld' : nHeld = nRest + r.nTailPos := eq_of_int hheld
      by_cases hword : nHeld ≥ LEN_INT
      · rw [if_pos hword] at heq
        obtain ⟨high, hhigh, heq⟩ := except_bind_eq_ok_iff.mp heq
        obtain ⟨low, hlow, heq⟩ := except_bind_eq_ok_iff.mp heq
        refine ⟨_, hhead.bind ((yields_evalInt hrest).bind
          ((yields_evalInt hheld).bind ?_)), heq⟩
        rw [if_pos hword]
        refine hhead.bind ((yields_evalInt hrest).bind ?_)
        refine (yields_copyHead hP (fun i hi hi' => ?_) hhigh).bind ?_
        · rw [UnreadAt, InSpan, if_neg (by omega)]
          omega
        · refine (yields_copyStart hP (fun i hi => ?_) hlow).bind rfl
          rw [UnreadAt, InSpan, if_neg (by omega)]
          omega
      · rw [if_neg hword] at heq
        refine ⟨0, hhead.bind ((yields_evalInt hrest).bind
          ((yields_evalInt hheld).bind ?_)), heq⟩
        rw [if_neg hword]
        rfl

end

def frames (ps : List Bytes) : Bytes := (ps.map frame).flatten

theorem frames_append (ps qs : List Bytes) : frames (ps ++ qs) = frames ps ++ frames qs := by
  rw [frames, map_append, flatten_append]
  rfl

theorem frames_cons (p : Bytes) (ps : List Bytes) : frames (p :: ps) = frame p ++ frames ps := rfl

theorem frames_singleton (p : Bytes) : frames [p] = frame p := append_nil _

theorem frame_length (p : Bytes) : (frame p).length = 8 + p.length := by
  rw [frame, length_append, pktHead_length]

/-- A payload of this size is never taken for damage while it is incomplete, and no sum of lengths
overflows. -/
structure FineSize (nDataBufSize : Int) (p : Bytes) : Prop where
  fits : p.length ≤ nDataBufSize
  unsuspicious : p.length ≤ 1016 ∨ (p.length : Int) + 8 ≤ nDataBufSize
  sum : (p.length : Int) + 24 ≤ 2147483647

/-- The invariant of both threads. The ring holds the bytes that are on the way, and of the last
packet at least its header has been written. -/
structure Inv (nDataBufSize : Int) (s : Shared) : Prop where
  valid : Valid s.ring
  notices : s.ring.notices = []
  stream : s.consumed ++ unread s.ring = s.produced
  begun : s.produced <+: frames s.pushed
  begun_last : ∀ done p, s.pushed = done ++ [p] → (frames done).length + 8 ≤ s.produced.length
  sizes : ∀ p ∈ s.pushed, FineSize nDataBufSize p
  order : s.popped <+: s.pushed

structure Produces (s s' : Shared) (data : Bytes) : Prop where
  ring : Appended s.ring s'.ring data
  produced : s'.produced = s.produced ++ data
  consumed : s'.consumed = s.consumed
  popped : s'.popped = s.popped
  pushed : s.pushed <+: s'.pushed

structure Consumes (s s' : Shared) (data : Bytes) : Prop where
  ring : Taken s.ring s'.ring data
  consumed : s'.consumed = s.consumed ++ data
  produced : s'.produced = s.produced
  pushed : s'.pushed = s.pushed
  popped : s.popped <+: s'.popped

theorem advanced_zero (hv : Valid s) : (advanced s 0).nHeadPos = s.nHeadPos := by
  obtain ⟨-, hh0, hh, -, -⟩ := hv.toBounded
  simp only [advanced, readHead]
  split <;> omega

theorem taken_refl (hv : Valid s) : Taken s s [] :=
  ⟨rfl, rfl, rfl, rfl, (advanced_zero hv).symm, rfl⟩

def protocol (nDataBufSize : Int) : Protocol Shared where
  inv := Inv nDataBufSize
  guar
    | .left => fun s s' => Valid s.ring → ∃ data, Produces s s' data
    | .right => fun s s' => Valid s.ring → ∃ data, Consumes s s' data
  guar_refl
    | .left => fun _ hv => ⟨[], .refl hv.toBounded, (append_nil _).symm, rfl, rfl, prefix_refl _⟩
    | .right => fun _ hv => ⟨[], taken_refl hv, (append_nil _).symm, rfl, rfl, prefix_refl _⟩

def idle : Side → Shared → Prop
  | .left => fun s => s.produced = frames s.pushed
  | .right => fun s => s.consumed = frames s.popped

def Answers : Side → Returned → Shared → Prop
  | .left => fun _ _ => True
  | .right => fun r s => r = ⟨0, []⟩ ∨ ∃ p ∈ s.popped, r = ⟨p.length, p⟩

section

variable {n : Int} {P : Shared → Prop}

theorem stable_left (h : ∀ s s' data, Inv n s → Consumes s s' data → P s → P s') :
    (protocol n).Stable .left P := by
  intro s s' hs _ hguar hp
  obtain ⟨data, hdata⟩ := hguar hs.valid
  exact h s s' data hs hdata hp

theorem stable_right (h : ∀ s s' data, Inv n s → Produces s s' data → P s → P s') :
    (protocol n).Stable .right P := by
  intro s s' hs _ hguar hp
  obtain ⟨data, hdata⟩ := hguar hs.valid
  exact h s s' data hs hdata hp

theorem idle_stable (side : Side) : (protocol n).Stable side (idle side) := by
  cases side with
  | left =>
    refine stable_left fun s s' data _ hc hidle => ?_
    change s'.produced = frames s'.pushed
    rw [hc.produced, hc.pushed]
    exact hidle
  | right =>
    refine stable_right fun s s' data _ hc hidle => ?_
    change s'.consumed = frames s'.popped
    rw [hc.consumed, hc.popped]
    exact hidle

theorem answers_stable (side : Side) (r : Returned) (side' : Side) (s s' : Shared) (hs : Inv n s)
    (hguar : (protocol n).guar side' s s') (h : Answers side r s) : Answers side r s' := by
  have hpopped : s.popped <+: s'.popped := by
    cases side' with
    | left =>
      obtain ⟨data, hdata⟩ := hguar hs.valid
      exact hdata.popped ▸ prefix_refl _
    | right =>
      obtain ⟨data, hdata⟩ := hguar hs.valid
      exact hdata.popped
  cases side with
  | left => trivial
  | right => exact h.imp_right fun ⟨p, hp, hr⟩ => ⟨p, hpopped.subset hp, hr⟩

end

section

variable {n : Int}

theorem Inv.produce (hs : Inv n s) (h : Produces s s' data)
    (hbegun : s'.produced <+: frames s'.pushed)
    (hlast : ∀ done p, s'.pushed = done ++ [p] → (frames done).length + 8 ≤ s'.produced.length)
    (hsizes : ∀ p ∈ s'.pushed, FineSize n p) : Inv n s' where
  valid := h.ring.valid hs.valid
  notices := h.ring.notices_eq.trans hs.notices
  stream := by rw [h.consumed, h.ring.unread_eq, h.produced, ← hs.stream, append_assoc]
  begun := hbegun
  begun_last := hlast
  sizes := hsizes
  order := by
    rw [h.popped]
    exact hs.order.trans h.pushed

structure Checking (r : CLoopBuf) (s : Shared) : Prop where
  whole : s.produced = frames s.pushed
  behind : Behind r.nHeadPos s.ring
  tail_eq : s.ring.nTailPos = r.nTailPos
  size_eq : s.ring.m_nBufSize = r.m_nBufSize

/-- The producer is writing a packet. It still owes these bytes, and there is room for all of them.
-/
structure Writing (h : Int) (owed : Bytes) (s : Shared) : Prop where
  behind : Behind h s.ring
  room : RoomBy h s.ring owed.length
  owed_eq : s.produced ++ owed = frames s.pushed

theorem checking_stable (r : CLoopBuf) : (protocol n).Stable .left (Checking r) := by
  refine stable_left fun s s' data hs hc h => ⟨?_, ?_, ?_, ?_⟩
  · rw [hc.produced, hc.pushed]
    exact h.whole
  · exact h.behind.taken hs.valid hc.ring
  · exact hc.ring.tail_eq.trans h.tail_eq
  · exact hc.ring.size_eq.trans h.size_eq

theorem writing_stable (h : Int) (owed : Bytes) : (protocol n).Stable .left (Writing h owed) := by
  refine stable_left fun s s' data hs hc hw => ⟨?_, ?_, ?_⟩
  · exact hw.behind.taken hs.valid hc.ring
  · rw [RoomBy, hc.ring.size_eq, hc.ring.tail_eq]
    exact hw.room
  · rw [hc.produced, hc.pushed]
    exact hw.owed_eq

theorem pushData_obeys {P : Shared → Prop} {started : Option Bytes}
    (hbehind : ∀ s, P s → Behind h s.ring)
    (hroom : ∀ s, P s → RoomBy h s.ring (data.length + owed.length))
    (howed : ∀ s, P s → s.produced ++ data ++ owed = frames (s.pushed ++ started.toList))
    (hlast : ∀ s, Inv n s → P s → ∀ done p, s.pushed ++ started.toList = done ++ [p] →
      (frames done).length + 8 ≤ (s.produced ++ data).length)
    (hsizes : ∀ p ∈ started.toList, FineSize n p) :
    (protocol n).Obeys .left (fun _ => Writing h owed) (pushData h data started) P := by
  refine .atomic (fun _ => writing_stable _ _) fun s hs hp => ?_
  have hdata : RoomBy h s.ring data.length := Fits.mono (hroom s hp) (Nat.le_add_right _ _)
  rw [(hbehind s hp).pushData_eq hs.valid hdata]
  have hpush : Produces s
      { s with
        ring := written s.ring data
        produced := s.produced ++ data
        pushed := s.pushed ++ started.toList } data :=
    ⟨written_appended hs.valid.toBounded ((hbehind s hp).room hs.valid hdata), rfl, rfl, rfl,
      prefix_append _ _⟩
  refine ⟨_, _, rfl, fun _ => ⟨_, hpush⟩, hs.produce hpush ⟨owed, howed s hp⟩ (hlast s hs hp) ?_,
    (hbehind s hp).written hs.valid hdata, .written hs.valid (hbehind s hp) (hroom s hp), howed s hp⟩
  exact forall_mem_append.mpr ⟨hs.sizes, hsizes⟩

theorem pushData_head_obeys (hp : FineSize n p) (hroom : Room r (8 + p.length)) :
    (protocol n).Obeys .left (fun _ => Writing r.nHeadPos p)
      (pushData r.nHeadPos (pktHead (p.length + 8)) (some p)) (Checking r) := by
  refine pushData_obeys (fun s hc => hc.behind) (fun s hc => ?_) (fun s hc => ?_)
    (fun s hs hc done q hdone => ?_) (forall_mem_singleton.mpr hp)
  · rw [RoomBy, hc.tail_eq, hc.size_eq, pktHead_length]
    exact hroom
  · rw [Option.toList_some, frames_append, frames_singleton, hc.whole, frame, append_assoc]
  · obtain ⟨rfl, -⟩ := append_inj' hdone rfl
    simp [pktHead_length, hc.whole]

theorem pushData_part_obeys (h : Int) (part owed : Bytes) :
    (protocol n).Obeys .left (fun _ => Writing h owed) (pushData h part none)
      (Writing h (part ++ owed)) := by
  refine pushData_obeys (fun s hw => hw.behind) (fun s hw => ?_) (fun s hw => ?_)
    (fun s hs hw done p hdone => ?_) nofun
  · rw [← length_append]
    exact hw.room
  · rw [Option.toList_none, append_nil, append_assoc]
    exact hw.owed_eq
  · have hbefore := hs.begun_last done p ((append_nil _).symm.trans hdone)
    rw [length_append]
    omega

theorem pushParts_obeys (h : Int) (parts : List Bytes) :
    (protocol n).Obeys .left (fun _ => idle .left) (pushParts h parts)
      (Writing h parts.flatten) := by
  induction parts with
  | nil =>
    refine .ret fun s _ hw => ?_
    have howed := hw.owed_eq
    rwa [flatten_nil, append_nil] at howed
  | cons part parts ih => exact (pushData_part_obeys h part parts.flatten).bind fun _ => ih

theorem foldlM_int_length (parts : List Bytes) (k : Int) (hk : 0 ≤ k)
    (hmax : k + parts.flatten.length ≤ 2147483647) :
    parts.foldlM (fun n part => int (n + part.length)) k =
      .ok (k + parts.flatten.length) := by
  induction parts generalizing k with
  | nil => simp only [foldlM_nil, flatten_nil, length_nil]; congr; omega
  | cons part parts ih =>
    rw [flatten_cons, length_append] at hmax ⊢
    rw [foldlM_cons, int_eq (by omega), pure_bind, ih _ (by omega) (by omega)]
    congr 1
    omega

theorem refused_appended (hb : Bounded s) : Appended s (refused s) [] :=
  ⟨{ hb with }, id, (append_nil _).symm, fun _ h => ⟨h, rfl⟩, rfl, rfl, rfl⟩

theorem countPushZero_obeys (r : CLoopBuf) :
    (protocol n).Obeys .left (fun _ => idle .left) countPushZero (Checking r) := by
  refine .atomic (fun _ => idle_stable .left) fun s hs hc => ?_
  have hpush : Produces s { s with ring := refused s.ring } [] :=
    ⟨refused_appended hs.valid.toBounded, (append_nil _).symm, rfl, rfl, prefix_refl _⟩
  exact ⟨_, _, rfl, fun _ => ⟨[], hpush⟩, hs.produce hpush hs.begun hs.begun_last hs.sizes, hc.whole⟩

theorem pushIn_obeys (hp : FineSize n parts.flatten) :
    (protocol n).Obeys .left (fun a s => Answers .left a s ∧ idle .left s) (pushIn parts)
      (idle .left) := by
  have hsum := hp.sum
  obtain ⟨nPayload, hlen⟩ : ∃ nPayload : Int, parts.flatten.length = nPayload := ⟨_, rfl⟩
  have hpayload : payloadSize parts = .ok nPayload := by
    rw [payloadSize, foldlM_int_length parts 0 le_rfl (by omega), zero_add, hlen]
  have hfull : int (nPayload + LOOP_PKT_HEAD_LEN) = .ok (nPayload + 8) := by
    rw [LOOP_PKT_HEAD_LEN, int_eq (by omega)]
    rfl
  refine (Yields.ofExcept hpayload).then (idle_stable .left) ?_
  refine (yields_evalInt hfull).then (idle_stable .left) ?_
  -- the ring as it is when the head is read
  refine Obeys.bind (Q := fun h s => ∃ r, (Valid r ∧ r.nHeadPos = h) ∧ Checking r s)
    (.read (fun h => ?_) fun s hs hidle => ?_) fun h => ?_
  · exact .exists fun r => (Stable.const _).and (checking_stable r)
  · exact ⟨s.ring, ⟨hs.valid, rfl⟩, hidle, behind_self hs.valid, rfl, rfl⟩
  refine .of_exists fun r => .of_and fun hr => ?_
  obtain ⟨hv, rfl⟩ := hr
  have hcheck : LoopBuf.isPushSizeEnough r r.nHeadPos (nPayload + 8) = _ :=
    isPushSizeEnough_eq hv.toBounded (by omega) (by omega) (.inr (by omega))
  refine (yields_isPushSizeEnough (fun s _ h => h.tail_eq) (fun s _ h => h.size_eq) hcheck).then
    (checking_stable r) ?_
  by_cases hspace : Space r (nPayload + 8)
  · have hall : Room r (8 + parts.flatten.length) := by
      apply room_of_space hv.toBounded
      rwa [Nat.cast_add, hlen, Int.add_comm]
    rw [decide_eq_true hspace, if_neg (by decide), ← hlen]
    refine (pushData_head_obeys hp hall).bind fun _ => ?_
    exact (pushParts_obeys r.nHeadPos parts).bind fun _ => .ret fun s _ h => ⟨trivial, h⟩
  · rw [decide_eq_false hspace]
    exact (countPushZero_obeys r).bind fun _ => .ret fun s _ h => ⟨trivial, h⟩

end

section

variable {n : Int}

theorem Inv.consume (hs : Inv n s) (h : Consumes s s' data) (horder : s'.popped <+: s.pushed) :
    Inv n s' where
  valid := h.ring.valid hs.valid
  notices := h.ring.notices_eq.trans hs.notices
  stream := by
    rw [h.produced, h.consumed, append_assoc, ← h.ring.unread_eq]
    exact hs.stream
  begun := by
    rw [h.produced, h.pushed]
    exact hs.begun
  begun_last := by
    rw [h.produced, h.pushed]
    exact hs.begun_last
  sizes := by
    rw [h.pushed]
    exact hs.sizes
  order := by
    rw [h.pushed]
    exact horder

/-- The consumer has read the tail of `r`. Of the packet in `next` it has taken these bytes. -/
structure Seen (r : CLoopBuf) (taken : Bytes) (next : List Bytes) (s : Shared) : Prop where
  since : ∃ more, Appended r s.ring more
  consumed : s.consumed = frames s.popped ++ taken
  next : s.popped ++ next <+: s.pushed

theorem seen_stable (r : CLoopBuf) (taken : Bytes) (next : List Bytes) :
    (protocol n).Stable .right (Seen r taken next) := by
  refine stable_right fun s s' data hs hp h => ⟨?_, ?_, ?_⟩
  · obtain ⟨more, happ⟩ := h.since
    exact ⟨more ++ data, happ.trans hp.ring⟩
  · rw [hp.consumed, hp.popped]
    exact h.consumed
  · rw [hp.popped]
    exact h.next.trans hp.pushed

theorem Seen.idle {r : CLoopBuf} {next : List Bytes} {s : Shared} (h : Seen r [] next s) :
    idle .right s :=
  h.consumed.trans (append_nil _)

/-- What the consumer can find at the head: no bytes, a packet that is not all there, or a whole
packet. -/
inductive Front (n : Int) (r : CLoopBuf) : List Bytes → Prop
  | empty (h : unread r = []) : Front n r []
  | started (p rest : Bytes) (hp : FineSize n p) (h : unread r = pktHead (p.length + 8) ++ rest)
      (hrest : rest.length < p.length) : Front n r [p]
  | whole (p rest : Bytes) (hp : FineSize n p) (h : unread r = frame p ++ rest) : Front n r [p]

theorem Inv.front (hs : Inv n s) (hidle : idle .right s) :
    ∃ next, Front n s.ring next ∧ s.popped ++ next <+: s.pushed := by
  obtain ⟨waiting, hwaiting⟩ := hs.order
  have hstream := hs.stream
  rw [show s.consumed = frames s.popped from hidle] at hstream
  have hunread : unread s.ring <+: frames waiting := by
    have hbegun := hs.begun
    rw [← hstream, ← hwaiting, frames_append] at hbegun
    exact (prefix_append_right_inj _).mp hbegun
  cases waiting with
  | nil => exact ⟨[], .empty (prefix_nil.mp hunread), (append_nil _).symm ▸ hs.order⟩
  | cons p waiting =>
    have hp : FineSize n p := hs.sizes p (hwaiting ▸ mem_append_right _ mem_cons_self)
    have hnext : s.popped ++ [p] <+: s.pushed := ⟨waiting, by rw [← hwaiting]; simp⟩
    have hhead : 8 ≤ (unread s.ring).length := by
      obtain ⟨done, q, hdone⟩ := eq_nil_or_concat' (p :: waiting) |>.resolve_left (by simp)
      have hlast := hs.begun_last (s.popped ++ done) q (by rw [← hwaiting, hdone, append_assoc])
      rw [← hstream, frames_append, length_append, length_append] at hlast
      omega
    refine ⟨[p], ?_, hnext⟩
    rw [frames_cons] at hunread
    have hframe : frame p <+: frame p ++ frames waiting := prefix_append _ _
    by_cases hlen : (frame p).length ≤ (unread s.ring).length
    · obtain ⟨rest, hrest⟩ := prefix_of_prefix_length_le hframe hunread hlen
      exact .whole p rest hp hrest.symm
    · have hfirst : pktHead (p.length + 8) <+: frame p := prefix_append _ _
      obtain ⟨rest, hrest⟩ := prefix_of_prefix_length_le (hfirst.trans hframe) hunread
        (by rw [pktHead_length]; exact hhead)
      refine .started p rest hp hrest.symm ?_
      rw [← hrest, length_append, pktHead_length, frame_length] at hlen
      omega

theorem countPopZero_obeys :
    (protocol n).Obeys .right (fun _ => idle .right) countPopZero (Seen r [] ps) := by
  refine .atomic (fun _ => idle_stable .right) fun s hs hseen => ?_
  have htaken : Taken s.ring (starved s.ring) [] :=
    ⟨rfl, rfl, rfl, rfl, (advanced_zero hs.valid).symm, rfl⟩
  have hpop : Consumes s { s with ring := starved s.ring } [] :=
    ⟨htaken, (append_nil _).symm, rfl, rfl, prefix_refl _⟩
  exact ⟨_, _, rfl, fun _ => ⟨[], hpop⟩, hs.consume hpop hs.order, hseen.idle⟩

theorem popNothing_obeys (nFullDataSize : Int)
    (h : nFullDataSize ≤ 1024 ∨ 0 ≤ nFullDataSize ∧ nFullDataSize ≤ n) :
    (protocol n).Obeys .right (fun a s => Answers .right a s ∧ idle .right s)
      (popNothing n nFullDataSize) (Seen r [] ps) := by
  rw [popNothing, if_neg (by omega)]
  exact countPopZero_obeys.bind fun _ => .ret fun s _ hidle => ⟨.inl rfl, hidle⟩

theorem popData_head_obeys (hv : Valid r) (hfront : unread r = xs ++ ys) (next : List Bytes) :
    (protocol n).Obeys .right (fun data s => data = xs ∧ Seen (advanced r xs.length) xs next s)
      (popData r.nTailPos xs.length false) (Seen r [] next) := by
  refine .atomic (fun _ => (Stable.const _).and (seen_stable _ _ _)) fun s hs hseen => ?_
  obtain ⟨more, happ⟩ := hseen.since
  obtain ⟨hpop, htaken⟩ := popData_stale hv happ hfront
  rw [hpop]
  have hconsumes : Consumes s
      { s with ring := advanced s.ring xs.length, consumed := s.consumed ++ xs } xs :=
    ⟨htaken, rfl, rfl, rfl, prefix_refl _⟩
  refine ⟨xs, _, rfl, fun _ => ⟨xs, hconsumes⟩, hs.consume hconsumes hs.order, rfl, ?_, ?_, hseen.next⟩
  · exact ⟨more, (Appended.advanced hv happ hfront).2.2⟩
  · exact congrArg (· ++ xs) hseen.idle

theorem popData_rest_obeys (hv : Valid r) (hfront : unread r = p ++ ys) :
    (protocol n).Obeys .right (fun data s => Answers .right ⟨p.length, data⟩ s ∧ idle .right s)
      (popData r.nTailPos p.length true) (Seen r (pktHead (p.length + 8)) [p]) := by
  refine .atomic (fun data => .and ?_ (idle_stable .right)) fun s hs hseen => ?_
  · exact fun s s' hs _ => answers_stable .right _ _ s s' hs
  · obtain ⟨more, happ⟩ := hseen.since
    obtain ⟨hpop, htaken⟩ := popData_stale hv happ hfront
    rw [hpop]
    have hconsumes : Consumes s
        { s with
          ring := advanced s.ring p.length
          consumed := s.consumed ++ p
          popped := s.popped ++ [p] } p :=
      ⟨htaken, rfl, rfl, rfl, prefix_append _ _⟩
    refine ⟨p, _, rfl, fun _ => ⟨p, hconsumes⟩, hs.consume hconsumes hseen.next, .inr ?_, ?_⟩
    · exact ⟨p, mem_append_right _ (mem_singleton_self p), rfl⟩
    · change s.consumed ++ p = frames (s.popped ++ [p])
      rw [hseen.consumed, frames_append, frames_singleton, frame, append_assoc]

theorem pktHead_sync (nFullDataSize : Int) : (pktHead nFullDataSize).drop 4 = syncWord := by
  rw [pktHead, drop_left' (leBytes_length _ _)]

theorem popPacket_obeys {r : CLoopBuf} (hv : Valid r) {p rest : Bytes} (hp : FineSize n p)
    (h : unread r = pktHead (p.length + 8) ++ (p ++ rest)) {nFullDataSize : Int}
    (hfull : nFullDataSize = p.length + 8) :
    (protocol n).Obeys .right (fun a s => Answers .right a s ∧ idle .right s)
      (popPacket n r.nTailPos nFullDataSize) (Seen r [] [p]) := by
  have hsum := hp.sum
  have hfits := hp.fits
  have hhead : LOOP_PKT_HEAD_LEN = ((pktHead (p.length + 8)).length : Int) := by
    rw [pktHead_length]
    rfl
  obtain ⟨nDataSize, hlen⟩ : ∃ nDataSize : Int, p.length = nDataSize := ⟨_, rfl⟩
  have hsize : int (nFullDataSize - (pktHead (p.length + 8)).length) = .ok nDataSize := by
    rw [pktHead_length, int_eq (by omega), hfull, ← hlen]
    exact congrArg Except.ok (Int.add_sub_cancel _ _)
  obtain ⟨hv', hrest⟩ := popData_spec hv h |>.2
  rw [popPacket, hhead]
  refine (popData_head_obeys hv h [p]).bind fun popPktHead => .of_and ?_
  rintro rfl
  rw [if_neg (not_not.mpr (pktHead_sync _))]
  refine (yields_evalInt hsize).then (seen_stable _ _ _) ?_
  rw [if_neg (by omega), ← hlen]
  exact (popData_rest_obeys hv' hrest).bind fun data => .ret fun s _ hdone => hdone

theorem popOut_obeys :
    (protocol n).Obeys .right (fun a s => Answers .right a s ∧ idle .right s) (popOut n)
      (idle .right) := by
  -- the ring as it is when the tail is read
  refine Obeys.bind
    (Q := fun t s => ∃ r, (Valid r ∧ r.nTailPos = t) ∧ ∃ next, Front n r next ∧ Seen r [] next s)
    (.read (fun t => ?_) fun s hs hidle => ?_) fun t => ?_
  · refine .exists fun r => (Stable.const _).and (.exists fun next => ?_)
    exact (Stable.const _).and (seen_stable r [] next)
  · obtain ⟨next, hfront, hnext⟩ := hs.front hidle
    refine ⟨s.ring, ⟨hs.valid, rfl⟩, next, hfront, ⟨[], .refl hs.valid.toBounded⟩, ?_, hnext⟩
    exact Eq.trans hidle (append_nil _).symm
  refine .of_exists fun r => .of_and fun hr => .of_exists fun next => .of_and fun hfront => ?_
  obtain ⟨hv, rfl⟩ := hr
  have hcheck {v : Bool × Int} (heq : LoopBuf.isPopSizeEnough r r.nTailPos = .ok v) :
      (protocol n).Yields (Seen r [] next) (isPopSizeEnough r.nTailPos) v :=
    yields_isPopSizeEnough (fun s _ h => h.since) hv heq
  cases hfront with
  | empty h =>
    refine (hcheck (isPopSizeEnough_empty hv h)).then (seen_stable r [] _) ?_
    exact popNothing_obeys 0 (.inl (by decide))
  | started p rest hp h hrest =>
    have hsum := hp.sum
    have hsize := hp.unsuspicious
    have hless : ¬p.length + 8 ≤ (unread r).length := by
      rw [h, length_append, pktHead_length]
      omega
    have heq := isPopSizeEnough_head (n := p.length + 8) hv h (by omega) (by omega)
    rw [decide_eq_false hless] at heq
    refine (hcheck heq).then (seen_stable r [] _) ?_
    exact popNothing_obeys _ (by omega)
  | whole p rest hp h =>
    have hsum := hp.sum
    rw [frame, append_assoc] at h
    have hheld : p.length + 8 ≤ (unread r).length := by
      rw [h, length_append, length_append, pktHead_length]
      omega
    have heq := isPopSizeEnough_head (n := p.length + 8) hv h (by omega) (by omega)
    rw [decide_eq_true hheld] at heq
    refine (hcheck heq).then (seen_stable r [] _) ?_
    exact popPacket_obeys hv hp h (Nat.cast_add _ _)

end

def Spacious (nDataBufSize : Int) (call : Call) : Prop :=
  ((payload call).length ≤ 1016 ∨ ((payload call).length : Int) + 8 ≤ nDataBufSize) ∧
    ((payload call).length : Int) + 24 ≤ 2147483647

theorem call_obeys (call : Call) (hadm : Admissible n call) (hspace : Spacious n call) :
    (protocol n).Obeys ((calls n).side call)
      (fun a s => Answers ((calls n).side call) a s ∧ idle ((calls n).side call) s)
      ((calls n).body call) (idle ((calls n).side call)) := by
  have hsize : FineSize n (payload call) := ⟨hadm.2, hspace.1, hspace.2⟩
  cases call with
  | pushInNoblock lpData =>
    refine pushIn_obeys ?_
    rw [flatten_singleton]
    exact hsize
  | pushInNoblockParts lpData packet =>
    refine pushIn_obeys ?_
    rw [flatten_cons, flatten_singleton]
    exact hsize
  | popOut => exact popOut_obeys

theorem start_inv (hmin : 0 ≤ nBufSize) (hmax : nBufSize + 20 ≤ 2147483647) :
    Inv n (start nBufSize) where
  valid := by refine ⟨⟨hmax, ?_, ?_, ?_, ?_⟩, ?_⟩ <;> simp only [start, init] <;> omega
  notices := rfl
  stream := rfl
  begun := prefix_refl _
  begun_last done p h := by simp [start] at h
  sizes p h := by cases h
  order := prefix_refl _

/-- However the steps of the two threads interleave, packets come out whole and in the order they
went in. No packet is taken for damage and no access fails. -/
theorem concurrent_fifo {nBufSize nDataBufSize : Int} (hmin : 0 ≤ nBufSize)
    (hmax : nBufSize + 20 ≤ 2147483647) {c : Config Shared Fault Returned}
    (h : Reach ((queue nBufSize nDataBufSize).under fun _ l => ∀ call, l = .call call →
      Admissible nDataBufSize call ∧ Spacious nDataBufSize call) c) :
    c.shared.popped <+: c.shared.pushed ∧
      (∀ r ∈ c.returned .right, r = ⟨0, []⟩ ∨ ∃ p ∈ c.shared.popped, r = ⟨p.length, p⟩) ∧
      c.shared.ring.notices = [] ∧ ∀ side e, c.thread side ≠ some (.fail e) := by
  have hsound : Sound (protocol nDataBufSize) idle Answers c := by
    refine reach_sound (fun s hs => ?_) idle_stable ?_ (fun call hok => ?_) h
    · rw [Set.mem_singleton_iff.mp hs]
      refine ⟨start_inv hmin hmax, fun side => ?_⟩
      cases side <;> rfl
    · exact fun side r side' s s' hs _ => answers_stable side r side' s s' hs
    · exact call_obeys call hok.1 hok.2
  exact ⟨hsound.inv.order, hsound.returned .right, hsound.inv.notices, hsound.not_failed⟩

def waiting (nBufSize : Int) : Config Shared Fault Returned :=
  ⟨start nBufSize, fun _ => none, fun _ => []⟩

theorem reach_of_waiting {nBufSize n : Int} {ok : Call → Prop} {schedule : List (Label Call)}
    {c : Config Shared Fault Returned} (hok : ∀ call, .call call ∈ schedule → ok call)
    (h : schedule.foldlM (advance (calls n)) (waiting nBufSize) = some c) :
    Reach ((queue nBufSize n).under fun _ l => ∀ call, l = .call call → ok call) c := by
  refine reach_of_schedule (.start ⟨Set.mem_singleton _, rfl, rfl⟩) ?_ h
  rintro l hl call rfl
  exact hok call hl

def twoLooks : List (Label Call) :=
  .call (.pushInNoblockParts [7] [8]) :: replicate 5 (.step .left) ++
    .call .popOut :: replicate 8 (.step .right) ++ replicate 3 (.step .left) ++
    .call .popOut :: replicate 9 (.step .right)

theorem concurrent_fifo_twoLooks : ∃ c : Config Shared Fault Returned,
    c.returned .right = [⟨0, []⟩, ⟨2, [7, 8]⟩] ∧ c.shared.popped <+: c.shared.pushed ∧
      (∀ r ∈ c.returned .right, r = ⟨0, []⟩ ∨ ∃ p ∈ c.shared.popped, r = ⟨p.length, p⟩) ∧
      c.shared.ring.notices = [] ∧ ∀ side e, c.thread side ≠ some (.fail e) := by
  have hruns : (twoLooks.foldlM (advance (calls 16)) (waiting 64)).map (·.returned .right) =
      some [⟨0, []⟩, ⟨2, [7, 8]⟩] := by
    decide +kernel
  obtain ⟨c, hc, hreturned⟩ := Option.map_eq_some_iff.mp hruns
  have hreach : Reach ((queue 64 16).under fun _ l => ∀ call, l = .call call →
      Admissible 16 call ∧ Spacious 16 call) c := by
    refine reach_of_waiting (fun call hcall => ?_) hc
    simp [twoLooks] at hcall
    obtain rfl | rfl := hcall <;> exact ⟨⟨by decide, by decide⟩, by decide, by decide⟩
  exact ⟨c, hreturned, concurrent_fifo (by decide) (by decide) hreach⟩

def headerOnly (lpData : Bytes) : List (Label Call) :=
  .call (.pushInNoblock lpData) :: replicate 5 (.step .left) ++
    .call .popOut :: replicate 7 (.step .right)

theorem mem_headerOnly (h : .call call ∈ headerOnly lpData) :
    call = .pushInNoblock lpData ∨ call = .popOut := by
  simpa [headerOnly] using h

/-- A packet of 1017 bytes for a buffer of the same size is taken for damage while it is being
written, because its length is compared together with the header. -/
theorem started_packet_resets : ∃ c : Config Shared Fault Returned,
    Reach ((queue 4096 1017).under fun _ l => ∀ call, l = .call call → Admissible 1017 call) c ∧
      c.shared.ring.notices = [.queueShareMemError 1025 1017] ∧
      unread c.shared.ring = [] ∧ c.shared.pushed.length = 1 ∧ c.shared.popped = [] := by
  have hruns : ((headerOnly (replicate 1017 0)).foldlM (advance (calls 1017))
      (waiting 4096)).map (fun c => (c.shared.ring.notices, unread c.shared.ring,
        c.shared.pushed.length, c.shared.popped)) =
      some ([.queueShareMemError 1025 1017], [], 1, []) := by
    decide +kernel
  obtain ⟨c, hc, heq⟩ := Option.map_eq_some_iff.mp hruns
  simp only [Prod.mk.injEq] at heq
  refine ⟨c, reach_of_waiting (fun call hcall => ?_) hc, heq⟩
  obtain rfl | rfl := mem_headerOnly hcall
  · rw [Admissible, payload, length_replicate]
    decide
  · exact ⟨by decide, by decide⟩

end Utsuite.LoopBufConcurrent
