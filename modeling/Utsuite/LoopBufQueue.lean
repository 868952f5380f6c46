import Utsuite.LoopBuf
import Utsuite.Transitions

namespace Utsuite.LoopBufQueue

open ByteWords ByteMem RingSpan LoopBuf Transitions List

variable {s : CLoopBuf} {nBufSize : Int}

/-- The positions lie inside the ring, whatever bytes they mark. -/
structure Bounded (s : CLoopBuf) : Prop where
  size_le : s.m_nBufSize + 20 ≤ 2147483647
  head_nonneg : 0 ≤ s.nHeadPos
  head_le : s.nHeadPos ≤ s.m_nBufSize
  tail_nonneg : 0 ≤ s.nTailPos
  tail_le : s.nTailPos ≤ s.m_nBufSize

/-- In a ring that has gone around, the tail is not at the very start. -/
structure Valid (s : CLoopBuf) : Prop extends Bounded s where
  wrapped : s.nTailPos < s.nHeadPos → 0 < s.nTailPos

def unread (s : CLoopBuf) : Bytes :=
  span s.m_pShmBuf s.m_nBufSize.toNat s.nHeadPos.toNat s.nTailPos.toNat

def UnreadAt (s : CLoopBuf) (i : Nat) : Prop :=
  InSpan s.m_nBufSize.toNat s.nHeadPos.toNat s.nTailPos.toNat i

def Room (s : CLoopBuf) (n : Nat) : Prop :=
  Fits s.m_nBufSize.toNat s.nHeadPos.toNat s.nTailPos.toNat n

theorem int_overflow (h : 2147483647 < v) : int v = .error .intOverflow := by
  rw [int, if_neg (by rw [INT_MAX]; omega)]

theorem int_eq (h : -2147483648 ≤ v ∧ v ≤ 2147483647) : int v = pure v := by
  rw [int, INT_MAX, if_pos h]
  rfl

theorem copyIn_eq (h : 0 ≤ pos ∧ pos + data.length ≤ s.m_nBufSize) :
    copyIn s pos data = pure { s with m_pShmBuf := store s.m_pShmBuf pos.toNat data } := by
  rw [copyIn, if_pos h]
  rfl

theorem copyOut_eq (h : 0 ≤ pos ∧ 0 ≤ len ∧ pos + len ≤ s.m_nBufSize) :
    copyOut s pos len = pure (load s.m_pShmBuf pos.toNat len.toNat) := by
  rw [copyOut, if_pos h]
  rfl

def written (s : CLoopBuf) (data : Bytes) : CLoopBuf :=
  { s with
    m_pShmBuf := writeSpan s.m_pShmBuf s.m_nBufSize.toNat s.nHeadPos.toNat s.nTailPos.toNat data
    nTailPos := writeTail s.m_nBufSize.toNat s.nHeadPos.toNat s.nTailPos.toNat data.length }

theorem pushData_eq (hb : Bounded s) (hroom : Room s data.length) :
    pushData s.nHeadPos data s = pure (written s data) := by
  obtain ⟨hsize, hh0, hh, ht0, ht⟩ := hb
  simp only [Room, Fits] at hroom
  have hrest : int (s.m_nBufSize - s.nTailPos) = pure (s.m_nBufSize - s.nTailPos) :=
    int_eq (by omega)
  by_cases hle : s.nHeadPos ≤ s.nTailPos
  · rw [if_pos (by omega)] at hroom
    by_cases hfits : (data.length : Int) ≤ s.m_nBufSize - s.nTailPos
    · have hstay : ¬(s.nHeadPos.toNat ≤ s.nTailPos.toNat ∧
          s.m_nBufSize.toNat < s.nTailPos.toNat + data.length) := by omega
      have hcopy : copyIn s s.nTailPos data = _ := copyIn_eq (by omega)
      have htail : int (s.nTailPos + data.length) = pure (s.nTailPos + data.length) :=
        int_eq (by omega)
      simp only [pushData, hle, if_true, hrest, pure_bind, ge_iff_le, hfits, hcopy, htail,
        written, writeSpan, writeTail, if_neg hstay]
      congr
      omega
    · have hwrap : s.nHeadPos.toNat ≤ s.nTailPos.toNat ∧
          s.m_nBufSize.toNat < s.nTailPos.toNat + data.length := by omega
      have hleft : int (data.length - (s.m_nBufSize - s.nTailPos)) =
          pure (data.length - (s.m_nBufSize - s.nTailPos)) := int_eq (by omega)
      have hcut : (s.m_nBufSize - s.nTailPos).toNat = s.m_nBufSize.toNat - s.nTailPos.toNat := by
        omega
      simp only [pushData, hle, if_true, hrest, pure_bind, ge_iff_le, hfits, if_false, hleft,
        written, writeSpan, writeTail, if_pos hwrap, hcut]
      rw [copyIn_eq (by rw [length_take]; omega), pure_bind,
        copyIn_eq (by rw [length_drop]; dsimp only; omega), pure_bind]
      congr
      omega
  · rw [if_neg (by omega)] at hroom
    have hstay : ¬(s.nHeadPos.toNat ≤ s.nTailPos.toNat ∧
        s.m_nBufSize.toNat < s.nTailPos.toNat + data.length) := by omega
    have htail : int (s.nTailPos + data.length) = pure (s.nTailPos + data.length) :=
      int_eq (by omega)
    simp only [pushData, hle, if_false, written, writeSpan, writeTail, if_neg hstay]
    rw [copyIn_eq (by omega), pure_bind, htail, pure_bind]
    congr
    omega

/-- The bytes `data` went in behind the unread ones, and the consumer's position did not move. -/
structure Appended (s s' : CLoopBuf) (data : Bytes) : Prop where
  bounded : Bounded s'
  wrapped : (s.nTailPos < s.nHeadPos → 0 < s.nTailPos) → s'.nTailPos < s'.nHeadPos → 0 < s'.nTailPos
  unread_eq : unread s' = unread s ++ data
  untouched : ∀ i, UnreadAt s i → UnreadAt s' i ∧ s'.m_pShmBuf i = s.m_pShmBuf i
  head_eq : s'.nHeadPos = s.nHeadPos
  size_eq : s'.m_nBufSize = s.m_nBufSize
  notices_eq : s'.notices = s.notices

theorem Appended.valid (h : Appended s s' data) (hv : Valid s) : Valid s' :=
  ⟨h.bounded, h.wrapped hv.wrapped⟩

theorem Appended.refl (hb : Bounded s) : Appended s s [] where
  bounded := hb
  wrapped := id
  unread_eq := (append_nil _).symm
  untouched _ hi := ⟨hi, rfl⟩
  head_eq := rfl
  size_eq := rfl
  notices_eq := rfl

theorem Appended.trans (h : Appended s s' xs) (h' : Appended s' s'' ys) :
    Appended s s'' (xs ++ ys) where
  bounded := h'.bounded
  wrapped hw := h'.wrapped (h.wrapped hw)
  unread_eq := by rw [h'.unread_eq, h.unread_eq, append_assoc]
  untouched i hi := by
    obtain ⟨hmem, heq⟩ := h.untouched i hi
    obtain ⟨hmem', heq'⟩ := h'.untouched i hmem
    exact ⟨hmem', heq'.trans heq⟩
  head_eq := h'.head_eq.trans h.head_eq
  size_eq := h'.size_eq.trans h.size_eq
  notices_eq := h'.notices_eq.trans h.notices_eq

theorem written_appended (hb : Bounded s) (hroom : Room s data.length) :
    Appended s (written s data) data where
  bounded := by
    have hle := writeTail_le (Int.toNat_le_toNat hb.head_le) hroom
    obtain ⟨hsize, hh0, hh, ht0, ht⟩ := hb
    refine ⟨hsize, hh0, hh, ?_, ?_⟩ <;> simp only [written] <;> omega
  wrapped hw := by
    obtain ⟨hsize, hh0, hh, ht0, ht⟩ := hb
    have hpos : writeTail s.m_nBufSize.toNat s.nHeadPos.toNat s.nTailPos.toNat data.length <
        s.nHeadPos.toNat → 0 < writeTail _ _ _ _ := writeTail_pos (by omega)
    simp only [written]
    omega
  unread_eq := by
    simp only [unread, written, Int.toNat_natCast]
    exact span_write (Int.toNat_le_toNat hb.head_le) (Int.toNat_le_toNat hb.tail_le) hroom
  untouched i hi := by
    refine ⟨?_, writeSpan_of_inSpan hroom hi⟩
    simpa only [UnreadAt, written, Int.toNat_natCast] using
      inSpan_writeTail (Int.toNat_le_toNat hb.tail_le) hroom hi
  head_eq := rfl
  size_eq := rfl
  notices_eq := rfl

theorem pushData_spec (hb : Bounded s) (data : Bytes) (hroom : Room s (data.length + k)) :
    ∃ s', pushData s.nHeadPos data s = pure s' ∧ Appended s s' data ∧ Room s' k := by
  have hnow : Room s data.length := hroom.mono (Nat.le_add_right _ _)
  refine ⟨written s data, pushData_eq hb hnow, written_appended hb hnow, ?_⟩
  simpa only [Room, written, Int.toNat_natCast] using fits_writeTail hroom

/-- There is space for `n` bytes, with a gap behind them unless they end before the end of the ring.
-/
def Space (s : CLoopBuf) (n : Int) : Prop :=
  if s.nHeadPos ≤ s.nTailPos then
    n ≤ s.m_nBufSize - s.nTailPos ∨ n + 16 ≤ s.m_nBufSize - s.nTailPos + s.nHeadPos
  else n + 16 < s.nHeadPos - s.nTailPos

instance (s : CLoopBuf) (n : Int) : Decidable (Space s n) :=
  inferInstanceAs (Decidable (if s.nHeadPos ≤ s.nTailPos then
    n ≤ s.m_nBufSize - s.nTailPos ∨ n + 16 ≤ s.m_nBufSize - s.nTailPos + s.nHeadPos
  else n + 16 < s.nHeadPos - s.nTailPos))

theorem room_of_space (hb : Bounded s) {n : Nat} (h : Space s n) : Room s n := by
  obtain ⟨hsize, hh0, hh, ht0, ht⟩ := hb
  rw [Space] at h
  rw [Room, Fits]
  split at h
  · rw [if_pos (by omega)]
    omega
  · rw [if_neg (by omega)]
    omega

theorem isPushSizeEnough_eq (hb : Bounded s) (h0 : 0 ≤ nDataLen) (hmax : nDataLen ≤ 2147483647)
    (hsafe : s.nHeadPos ≤ s.nTailPos ∨ nDataLen + 16 ≤ 2147483647) :
    isPushSizeEnough s s.nHeadPos nDataLen = pure (decide (Space s nDataLen)) := by
  obtain ⟨hsize, hh0, hh, ht0, ht⟩ := hb
  simp only [isPushSizeEnough, INTERVAL_SPACE]
  by_cases hle : s.nHeadPos ≤ s.nTailPos
  · rw [if_pos hle, int_eq (by omega), pure_bind]
    split
    · next hfits => rw [decide_eq_true (by rw [Space, if_pos hle]; exact .inl hfits)]
    · next hfits =>
        rw [int_eq (by omega), pure_bind, int_eq (by omega), pure_bind, decide_eq_decide.mpr]
        rw [Space, if_pos hle]
        omega
  · rw [if_neg hle, int_eq (by omega), pure_bind, int_eq (by omega), pure_bind,
      decide_eq_decide.mpr]
    rw [Space, if_neg hle]

theorem isPushSizeEnough_overflow (hb : Bounded s) (hbehind : s.nTailPos < s.nHeadPos)
    (hbig : 2147483647 < nDataLen + 16) :
    isPushSizeEnough s s.nHeadPos nDataLen = throw .intOverflow := by
  obtain ⟨hsize, hh0, hh, ht0, ht⟩ := hb
  rw [isPushSizeEnough, if_neg (by omega), int_eq (by omega), pure_bind, int, INT_MAX,
    INTERVAL_SPACE, if_neg (by omega)]
  rfl

def frame (p : Bytes) : Bytes := pktHead (p.length + 8) ++ p

theorem pktHead_length (n : Int) : (pktHead n).length = 8 := by
  simp [pktHead, syncWord]

def refused (s : CLoopBuf) : CLoopBuf := { s with m_dwLogPushZero := s.m_dwLogPushZero + 1 }

def NoOverflow (s : CLoopBuf) (nPayload : Int) : Prop :=
  nPayload + 8 ≤ 2147483647 ∧ (s.nHeadPos ≤ s.nTailPos ∨ nPayload + 24 ≤ 2147483647)

/-- What either form of `PushInNoblock` does with a packet: it refuses it, appends its frame or
overflows. -/
structure Offers (call : CLoopBuf → Except Fault (Returned × CLoopBuf)) (p : Bytes) : Prop where
  offered : ∀ s, Bounded s → NoOverflow s p.length →
    (¬Space s (p.length + 8) ∧ call s = .ok (⟨0, []⟩, refused s)) ∨
    (Space s (p.length + 8) ∧ ∃ s', call s = .ok (⟨p.length, []⟩, s') ∧ Appended s s' (frame p))
  overflow : ∀ s, Bounded s → ¬NoOverflow s p.length → call s = .error .intOverflow

theorem foldlM_pushData {parts : List Bytes} (hb : Bounded s) (hroom : Room s parts.flatten.length)
    (hhead : s.nHeadPos = nHeadPos) :
    ∃ s', parts.foldlM (fun s part => pushData nHeadPos part s) s = pure s' ∧
      Appended s s' parts.flatten := by
  induction parts generalizing s with
  | nil => exact ⟨s, rfl, .refl hb⟩
  | cons part parts ih =>
    rw [flatten_cons, length_append] at hroom
    obtain ⟨s₁, h₁, happ₁, hroom₁⟩ := pushData_spec hb part hroom
    obtain ⟨s₂, h₂, happ₂⟩ := ih happ₁.bounded hroom₁ (happ₁.head_eq.trans hhead)
    rw [hhead] at h₁
    exact ⟨s₂, by rw [foldlM_cons, h₁, pure_bind, h₂], happ₁.trans happ₂⟩

theorem pushParts_offers (parts : List Bytes) :
    Offers (pushParts parts.flatten.length parts) parts.flatten where
  offered s hb hsum := by
    obtain ⟨hmax, hsafe⟩ := hsum
    have hcheck : isPushSizeEnough s s.nHeadPos (parts.flatten.length + 8) = _ :=
      isPushSizeEnough_eq hb (by omega) hmax (by omega)
    simp only [pushParts, LOOP_PKT_HEAD_LEN]
    rw [int_eq (by omega), pure_bind, hcheck, pure_bind]
    by_cases hspace : Space s (parts.flatten.length + 8)
    · right
      have htotal : Room s (pktHead (parts.flatten.length + 8) :: parts).flatten.length := by
        rw [flatten_cons, length_append, pktHead_length, add_comm]
        exact room_of_space hb hspace
      obtain ⟨s', hpush, happ⟩ := foldlM_pushData hb htotal rfl
      rw [decide_eq_true hspace, if_neg (by decide), hpush, pure_bind]
      exact ⟨hspace, s', rfl, happ⟩
    · rw [decide_eq_false hspace]
      exact .inl ⟨hspace, rfl⟩
  overflow s hb hsum := by
    simp only [pushParts, LOOP_PKT_HEAD_LEN]
    by_cases hmax : (parts.flatten.length : Int) + 8 ≤ 2147483647
    · simp only [NoOverflow, hmax, true_and, not_or, not_le] at hsum
      have hover : isPushSizeEnough s s.nHeadPos (parts.flatten.length + 8) = throw .intOverflow :=
        isPushSizeEnough_overflow hb hsum.1 (by omega)
      rw [int_eq (by omega), pure_bind, hover]
      rfl
    · rw [int_overflow (by omega)]
      rfl

theorem pushInNoblock_offers (lpData : Bytes) : Offers (pushInNoblock lpData) lpData := by
  have hoffers := pushParts_offers [lpData]
  rwa [flatten_singleton] at hoffers

theorem pushInNoblockParts_offers (lpData packet : Bytes) :
    Offers (pushInNoblockParts lpData packet) (lpData ++ packet) := by
  have hlength : ((lpData ++ packet).length : Int) = lpData.length + packet.length := by
    rw [length_append, Nat.cast_add]
  by_cases hpayload : (lpData.length : Int) + packet.length ≤ 2147483647
  · have hoffers := pushParts_offers [lpData, packet]
    rw [flatten_cons, flatten_singleton, hlength] at hoffers
    have hcall : pushInNoblockParts lpData packet =
        pushParts (lpData.length + packet.length) [lpData, packet] := by
      funext s
      rw [pushInNoblockParts, int_eq (by omega), pure_bind]
    rwa [hcall]
  · refine ⟨fun s _ hsum => ?_, fun s _ _ => ?_⟩
    · have := hsum.1
      omega
    · rw [pushInNoblockParts, int_overflow (by omega)]
      rfl

def advanced (s : CLoopBuf) (n : Nat) : CLoopBuf :=
  { s with nHeadPos := readHead s.m_nBufSize.toNat s.nHeadPos.toNat s.nTailPos.toNat n }

theorem advanced_valid (hv : Valid s) (hn : n ≤ (unread s).length) : Valid (advanced s n) := by
  have hle := readHead_le (Int.toNat_le_toNat hv.head_le) (Int.toNat_le_toNat hv.tail_le) hn
  obtain ⟨⟨hsize, hh0, hh, ht0, ht⟩, hwrapped⟩ := hv
  refine ⟨⟨hsize, ?_, ?_, ht0, ht⟩, ?_⟩ <;> simp only [advanced]
  · omega
  · omega
  · rw [unread, span_length] at hn
    rw [readHead]
    split at hn <;> split <;> omega

def Inside (s : CLoopBuf) (n : Nat) : Prop :=
  if s.nHeadPos ≤ s.nTailPos then s.nHeadPos + n ≤ s.m_nBufSize
  else s.nHeadPos + n ≤ 2 * s.m_nBufSize

theorem inside_of_le (hb : Bounded s) (hn : n ≤ (unread s).length) : Inside s n := by
  obtain ⟨hsize, hh0, hh, ht0, ht⟩ := hb
  rw [unread, span_length] at hn
  rw [Inside]
  split at hn <;> split <;> omega

theorem popData_eq (hb : Bounded s) (hin : Inside s n) :
    popData s.nTailPos n s =
      pure (readSpan s.m_pShmBuf s.m_nBufSize.toNat s.nHeadPos.toNat s.nTailPos.toNat n,
        advanced s n) := by
  obtain ⟨hsize, hh0, hh, ht0, ht⟩ := hb
  rw [Inside] at hin
  simp only [popData, readSpan, advanced, readHead]
  by_cases hle : s.nHeadPos ≤ s.nTailPos
  · rw [if_pos hle] at hin
    rw [if_pos hle, if_neg (by omega), if_neg (by omega), copyOut_eq (by omega), pure_bind,
      int_eq (by omega), pure_bind, Int.toNat_natCast]
    congr
    omega
  · rw [if_neg hle] at hin
    rw [if_neg hle, int_eq (by omega), pure_bind]
    by_cases hfits : (n : Int) ≤ s.m_nBufSize - s.nHeadPos
    · rw [if_pos hfits, if_neg (by omega), if_neg (by omega), copyOut_eq (by omega), pure_bind,
        int_eq (by omega), pure_bind, Int.toNat_natCast]
      congr
      omega
    · have hhigh : (s.m_nBufSize - s.nHeadPos).toNat = s.m_nBufSize.toNat - s.nHeadPos.toNat := by
        omega
      have hlow : ((n : Int) - (s.m_nBufSize - s.nHeadPos)).toNat =
          s.nHeadPos.toNat + n - s.m_nBufSize.toNat := by omega
      rw [if_neg hfits, if_pos (by omega), if_pos (by omega), copyOut_eq (by omega), pure_bind,
        int_eq (by omega), pure_bind, copyOut_eq (by omega), pure_bind, hhigh, hlow]
      congr
      omega

theorem popData_spec (hv : Valid s) (h : unread s = xs ++ ys) :
    popData s.nTailPos xs.length s = pure (xs, advanced s xs.length) ∧
      Valid (advanced s xs.length) ∧ unread (advanced s xs.length) = ys := by
  have hn : xs.length ≤ (unread s).length := by
    rw [h, length_append]
    omega
  obtain ⟨hread, hrest⟩ := readSpan_eq_of_span (Int.toNat_le_toNat hv.head_le) h
  refine ⟨?_, advanced_valid hv hn, ?_⟩
  · rw [popData_eq hv.toBounded (inside_of_le hv.toBounded hn), hread]
  · simpa only [unread, advanced, Int.toNat_natCast] using hrest

def lengthWord (s : CLoopBuf) : Int :=
  if 4 ≤ (unread s).length then signed 32 (leValue ((unread s).take 4)) else 0

/-- The checks for a whole packet. In a ring that has gone around they ask for a positive length as
well. -/
def Enough (s : CLoopBuf) : Prop :=
  4 ≤ (unread s).length ∧ lengthWord s ≤ (unread s).length ∧
    (s.nTailPos < s.nHeadPos → 0 < lengthWord s)

instance (s : CLoopBuf) : Decidable (Enough s) :=
  inferInstanceAs (Decidable (4 ≤ (unread s).length ∧ lengthWord s ≤ (unread s).length ∧
    (s.nTailPos < s.nHeadPos → 0 < lengthWord s)))

theorem readSpan_eq_take (hb : Bounded s) (hn : n ≤ (unread s).length) :
    readSpan s.m_pShmBuf s.m_nBufSize.toNat s.nHeadPos.toNat s.nTailPos.toNat n =
      (unread s).take n := by
  have hlen : ((unread s).take n).length = n := by
    rw [length_take]
    omega
  have hread := (readSpan_eq_of_span (Int.toNat_le_toNat hb.head_le)
    (take_append_drop n (unread s)).symm).1
  rwa [hlen] at hread

theorem isPopSizeEnough_eq (hb : Bounded s) :
    isPopSizeEnough s s.nTailPos = pure (decide (Enough s), lengthWord s) := by
  have hheld : (unread s).length = _ := span_length
  have hword := fun h => readSpan_eq_take (n := 4) hb h
  obtain ⟨hsize, hh0, hh, ht0, ht⟩ := hb
  have hfour : LEN_INT = 4 := rfl
  have hfour' : LEN_INT.toNat = 4 := rfl
  rw [isPopSizeEnough]
  by_cases hle : s.nHeadPos ≤ s.nTailPos
  · rw [if_pos (by omega)] at hheld
    rw [if_pos hle, int_eq (by omega), pure_bind]
    by_cases hheader : 4 ≤ (unread s).length
    · have hload := hword hheader
      rw [readSpan, if_neg (by omega)] at hload
      have hvalue : signed 32 (leValue ((unread s).take 4)) = lengthWord s := by
        rw [lengthWord, if_pos hheader]
      rw [if_pos (by omega), copyOut_eq (by omega), pure_bind, int_eq (by omega), pure_bind, hfour',
        hload, hvalue, decide_eq_decide.mpr]
      rw [Enough]
      omega
    · rw [if_neg (by omega), lengthWord, if_neg hheader, decide_eq_false fun h => hheader h.1]
  · rw [if_neg (by omega)] at hheld
    have hfinish : (if lengthWord s > 0 then do
          let nHeld ← int (s.m_nBufSize - s.nHeadPos + s.nTailPos)
          pure (decide (nHeld ≥ lengthWord s), lengthWord s)
        else pure (false, lengthWord s)) =
        (pure (decide (Enough s), lengthWord s) : Except Fault (Bool × Int)) := by
      have hshort : ¬4 ≤ (unread s).length → lengthWord s = 0 := fun h => by
        rw [lengthWord, if_neg h]
      -- a positive word has been read, so there are four bytes
      split
      · rw [int_eq (by omega), pure_bind, decide_eq_decide.mpr]
        rw [Enough]
        omega
      · next hpos => rw [decide_eq_false fun h => hpos (h.2.2 (by omega))]
    rw [if_neg hle, int_eq (by omega), pure_bind]
    by_cases hheader : 4 ≤ (unread s).length
    · have hload := hword hheader
      have hvalue : signed 32 (leValue ((unread s).take 4)) = lengthWord s := by
        rw [lengthWord, if_pos hheader]
      by_cases hfits : s.m_nBufSize - s.nHeadPos ≥ LEN_INT
      · rw [readSpan, if_neg (by omega)] at hload
        rw [if_pos hfits, copyOut_eq (by omega), pure_bind, hfour', hload, hvalue, pure_bind]
        exact hfinish
      · have hhigh : (s.m_nBufSize - s.nHeadPos).toNat =
            s.m_nBufSize.toNat - s.nHeadPos.toNat := by omega
        have hlow : (LEN_INT - (s.m_nBufSize - s.nHeadPos)).toNat =
            s.nHeadPos.toNat + 4 - s.m_nBufSize.toNat := by omega
        rw [readSpan, if_pos (by omega)] at hload
        rw [if_neg hfits, int_eq (by omega), pure_bind, if_pos (by omega), copyOut_eq (by omega),
          pure_bind, copyOut_eq (by omega), pure_bind, hhigh, hlow, Int.toNat_zero, hload, hvalue,
          pure_bind, ← hfinish, int_eq (by omega)]
    · have hzero : lengthWord s = 0 := by rw [lengthWord, if_neg hheader]
      rw [if_neg (by omega), int_eq (by omega), pure_bind, if_neg (by omega), pure_bind, ← hfinish,
        hzero, int_eq (by omega)]

theorem isPopSizeEnough_empty (hv : Valid s) (h : unread s = []) :
    isPopSizeEnough s s.nTailPos = pure (false, 0) := by
  have hshort : ¬4 ≤ (unread s).length := by
    rw [h]
    decide
  rw [isPopSizeEnough_eq hv.toBounded, decide_eq_false fun henough => hshort henough.1, lengthWord,
    if_neg hshort]

theorem lengthWord_head {n : Nat} {rest : Bytes} (h : unread s = pktHead n ++ rest)
    (hmax : n < 2147483648) : lengthWord s = n := by
  have hlen : 4 ≤ (unread s).length := by
    rw [h, length_append, pktHead_length]
    omega
  have htake : (unread s).take 4 = leBytes 4 n := by
    rw [h, pktHead, append_assoc, Int.toNat_natCast, take_left' (leBytes_length 4 n)]
  rw [lengthWord, if_pos hlen, htake, leValue_leBytes, Nat.mod_eq_of_lt (by omega),
    signed_of_lt (by omega)]

theorem isPopSizeEnough_head (hv : Valid s) {n : Nat} {rest : Bytes}
    (h : unread s = pktHead n ++ rest) (hn : 0 < n) (hmax : n < 2147483648) :
    isPopSizeEnough s s.nTailPos = pure (decide (n ≤ (unread s).length), (n : Int)) := by
  have hlen : 4 ≤ (unread s).length := by
    rw [h, length_append, pktHead_length]
    omega
  have hword := lengthWord_head h hmax
  rw [isPopSizeEnough_eq hv.toBounded, hword, decide_eq_decide.mpr]
  rw [Enough, hword]
  omega

theorem unread_length_lt (hv : Valid s) : (unread s).length < 2147483648 := by
  obtain ⟨hsize, hh0, hh, ht0, ht⟩ := hv.toBounded
  rw [unread, span_length]
  split <;> omega

theorem isPopSizeEnough_frame (hv : Valid s) {p rest : Bytes} (h : unread s = frame p ++ rest) :
    isPopSizeEnough s s.nTailPos = pure (true, (p.length : Int) + 8) := by
  have hlen : p.length + 8 ≤ (unread s).length := by
    rw [h, frame, length_append, length_append, pktHead_length]
    omega
  have hlt := unread_length_lt hv
  have hsplit : unread s = pktHead ((p.length + 8 : Nat) : Int) ++ (p ++ rest) := by
    rw [h, frame, append_assoc]
    rfl
  rw [isPopSizeEnough_head hv hsplit (by omega) (by omega), decide_eq_true hlen]
  rfl

def starved (s : CLoopBuf) : CLoopBuf := { s with m_dwLogPopZero := s.m_dwLogPopZero + 1 }

theorem popOut_empty (hv : Valid s) (h : unread s = []) (nDataBufSize : Int) :
    popOut nDataBufSize s = pure (⟨0, []⟩, starved s) := by
  rw [popOut, isPopSizeEnough_empty hv h, pure_bind]
  rfl

theorem popOut_frame (hv : Valid s) (h : unread s = frame p ++ rest)
    (hbuf : (p.length : Int) ≤ nDataBufSize) :
    ∃ s', popOut nDataBufSize s = pure (⟨p.length, p⟩, s') ∧ Valid s' ∧ unread s' = rest ∧
      s'.m_nBufSize = s.m_nBufSize ∧ s'.m_pShmBuf = s.m_pShmBuf ∧ s'.notices = s.notices := by
  have hsplit : unread s = pktHead (p.length + 8) ++ (p ++ rest) := by
    rw [h, frame, append_assoc]
  obtain ⟨hpop, hv₁, hrest₁⟩ := popData_spec hv hsplit
  obtain ⟨hpop', hv₂, hrest₂⟩ := popData_spec hv₁ hrest₁
  have hlen : p.length + 8 ≤ (unread s).length := by
    rw [h, frame, length_append, length_append, pktHead_length]
    omega
  have hmax : (p.length : Int) + 8 ≤ 2147483647 := by
    obtain ⟨hsize, hh0, hh, ht0, ht⟩ := hv.toBounded
    rw [unread, span_length] at hlen
    split at hlen <;> omega
  have hhead : ((pktHead (p.length + 8)).length : Int) = LOOP_PKT_HEAD_LEN := by
    rw [pktHead_length]
    rfl
  have hsync : (pktHead (p.length + 8)).drop 4 = syncWord := by
    rw [pktHead, drop_left' (leBytes_length _ _)]
  have hdata : (p.length : Int) + 8 - LOOP_PKT_HEAD_LEN = p.length := by
    rw [LOOP_PKT_HEAD_LEN]
    omega
  refine ⟨_, ?_, hv₂, hrest₂, rfl, rfl, rfl⟩
  rw [hhead] at hpop
  rw [popOut, isPopSizeEnough_frame hv h, pure_bind]
  simp only [reduceCtorEq, if_false, hpop, pure_bind, hsync, ne_eq, not_true_eq_false, hdata]
  rw [int_eq (by omega), pure_bind, if_neg (by omega)]
  exact congrArg (· >>= _) hpop'

inductive Call
  | pushInNoblock (lpData : Bytes)
  | pushInNoblockParts (lpData packet : Bytes)
  | popOut (nDataBufSize : Int)
  deriving DecidableEq

def exec : Call → CLoopBuf → Except Fault (Returned × CLoopBuf)
  | .pushInNoblock lpData => pushInNoblock lpData
  | .pushInNoblockParts lpData packet => pushInNoblockParts lpData packet
  | .popOut nDataBufSize => popOut nDataBufSize

/-- The sizes are values of an `int`, and the buffer is large enough for the packet at the front. -/
def Admissible (s : CLoopBuf) : Call → Prop
  | .pushInNoblock lpData => (lpData.length : Int) + 8 ≤ 2147483647
  | .pushInNoblockParts lpData packet =>
    (lpData.length : Int) + packet.length + 8 ≤ 2147483647
  | .popOut nDataBufSize =>
    ∀ p rest, unread s = frame p ++ rest → (p.length : Int) ≤ nDataBufSize

def SumFits (s : CLoopBuf) : Call → Prop
  | .pushInNoblock lpData =>
    s.nHeadPos ≤ s.nTailPos ∨ (lpData.length : Int) + 24 ≤ 2147483647
  | .pushInNoblockParts lpData packet =>
    s.nHeadPos ≤ s.nTailPos ∨ (lpData.length : Int) + packet.length + 24 ≤ 2147483647
  | .popOut _ => True

def ring (nBufSize : Int) : System CLoopBuf (Call × Returned) where
  start := {init nBufSize}
  next s e s' := Admissible s e.1 ∧ exec e.1 s = .ok (e.2, s')

def Offered (q : List Bytes) (p : Bytes) (r : Returned) (q' : List Bytes) : Prop :=
  (r = ⟨0, []⟩ ∧ q' = q) ∨ (r = ⟨p.length, []⟩ ∧ q' = q ++ [p])

def fifo : System (List Bytes) (Call × Returned) where
  start := {[]}
  next q e q' := match e.1 with
    | .pushInNoblock lpData => Offered q lpData e.2 q'
    | .pushInNoblockParts lpData packet => Offered q (lpData ++ packet) e.2 q'
    | .popOut _ => match q with
      | [] => e.2 = ⟨0, []⟩ ∧ q' = []
      | p :: rest => e.2 = ⟨p.length, p⟩ ∧ q' = rest

structure Represents (nBufSize : Int) (s : CLoopBuf) (q : List Bytes) : Prop where
  valid : Valid s
  size_eq : s.m_nBufSize = nBufSize
  unread_eq : unread s = (q.map frame).flatten
  notices_eq : s.notices = []

def SameRing (s s' : CLoopBuf) : Prop :=
  s'.m_pShmBuf = s.m_pShmBuf ∧ s'.nHeadPos = s.nHeadPos ∧ s'.nTailPos = s.nTailPos

def Refines (nBufSize : Int) (s : CLoopBuf) (q : List Bytes) (call : Call) (r : Returned)
    (s' : CLoopBuf) : Prop :=
  ∃ q', fifo.next q (call, r) q' ∧ Represents nBufSize s' q' ∧ (q' = q → SameRing s s') ∧
    ∀ i, UnreadAt s i → s'.m_pShmBuf i = s.m_pShmBuf i

theorem refines_of_unchanged (hnext : fifo.next q (call, r) q) (hrep : Represents nBufSize s' q)
    (hsame : SameRing s s') : Refines nBufSize s q call r s' :=
  ⟨q, hnext, hrep, fun _ => hsame, fun i _ => congrFun hsame.1 i⟩

theorem refines_of_appended (hrep : Represents nBufSize s q) (happ : Appended s s' (frame p))
    (hnext : fifo.next q (call, r) (q ++ [p])) : Refines nBufSize s q call r s' := by
  refine ⟨q ++ [p], hnext, ⟨happ.valid hrep.valid, happ.size_eq.trans hrep.size_eq, ?_, ?_⟩, ?_, ?_⟩
  · rw [happ.unread_eq, hrep.unread_eq]
    simp
  · rw [happ.notices_eq, hrep.notices_eq]
  · intro hq
    simp at hq
  · exact fun i hi => (happ.untouched i hi).2

theorem exec_refines (hrep : Represents nBufSize s q) (hadm : Admissible s call)
    (hsum : SumFits s call) :
    ∃ r s', exec call s = .ok (r, s') ∧ Refines nBufSize s q call r s' := by
  obtain ⟨hv, hsize, hunread, hnotices⟩ := id hrep
  have hrefused : Represents nBufSize (refused s) q :=
    ⟨{ hv with }, hsize, hunread, hnotices⟩
  have hpush {call : Call} {p : Bytes} (hoffers : Offers (exec call) p)
      (hnext : ∀ r q', Offered q p r q' → fifo.next q (call, r) q') (hsum : NoOverflow s p.length) :
      ∃ r s', exec call s = .ok (r, s') ∧ Refines nBufSize s q call r s' := by
    obtain ⟨-, hno⟩ | ⟨-, s', hyes, happ⟩ := hoffers.offered s hv.toBounded hsum
    · exact ⟨_, _, hno, refines_of_unchanged (hnext _ _ (.inl ⟨rfl, rfl⟩)) hrefused ⟨rfl, rfl, rfl⟩⟩
    · exact ⟨_, s', hyes, refines_of_appended hrep happ (hnext _ _ (.inr ⟨rfl, rfl⟩))⟩
  cases call with
  | pushInNoblock lpData => exact hpush (pushInNoblock_offers lpData) (fun _ _ => id) ⟨hadm, hsum⟩
  | pushInNoblockParts lpData packet =>
    refine hpush (pushInNoblockParts_offers lpData packet) (fun _ _ => id) ?_
    rw [NoOverflow, length_append, Nat.cast_add]
    exact ⟨hadm, hsum⟩
  | popOut nDataBufSize =>
    cases q with
    | nil =>
      refine ⟨_, _, popOut_empty hv hunread nDataBufSize,
        refines_of_unchanged ⟨rfl, rfl⟩ ?_ ⟨rfl, rfl, rfl⟩⟩
      exact ⟨{ hv with }, hsize, hunread, hnotices⟩
    | cons p rest =>
      have hfront : unread s = frame p ++ (rest.map frame).flatten := hunread
      obtain ⟨s', hpop, hv', hrest, hsize', hbuf, hnotices'⟩ :=
        popOut_frame hv hfront (hadm p _ hfront)
      refine ⟨_, s', hpop, rest, ⟨rfl, rfl⟩, ⟨hv', hsize'.trans hsize, hrest, ?_⟩, ?_, ?_⟩
      · rw [hnotices', hnotices]
      · intro hq
        simp at hq
      · exact fun i _ => congrFun hbuf i

theorem exec_overflow (hb : Bounded s) (hsum : ¬SumFits s call) :
    exec call s = .error .intOverflow := by
  cases call with
  | pushInNoblock lpData => exact (pushInNoblock_offers lpData).overflow s hb fun h => hsum h.2
  | pushInNoblockParts lpData packet =>
    refine (pushInNoblockParts_offers lpData packet).overflow s hb fun h => hsum ?_
    rw [NoOverflow, length_append, Nat.cast_add] at h
    exact h.2
  | popOut nDataBufSize => exact absurd trivial hsum

theorem init_represents (hmin : 16 ≤ nBufSize) (hmax : nBufSize + 20 ≤ 2147483647) :
    Represents nBufSize (init nBufSize) [] := by
  refine ⟨⟨⟨hmax, ?_, ?_, ?_, ?_⟩, ?_⟩, rfl, rfl, rfl⟩ <;> simp only [init] <;> omega

theorem ring_refines_step (s : CLoopBuf) (e : Call × Returned) (s' : CLoopBuf) (q : List Bytes)
    (hrep : Represents nBufSize s q)
    (hnext : ((ring nBufSize).under fun s e => SumFits s e.1).next s e s') :
    ∃ q', fifo.next q e q' ∧ Represents nBufSize s' q' := by
  obtain ⟨hsum, hadm, hexec⟩ := hnext
  obtain ⟨r, s₁, hexec₁, q', hq, hrep', -⟩ := exec_refines hrep hadm hsum
  rw [hexec] at hexec₁
  cases hexec₁
  exact ⟨q', hq, hrep'⟩

theorem admissible_popOut (h : ((unread s).length : Int) ≤ nDataBufSize + 8) :
    Admissible s (.popOut nDataBufSize) := by
  intro p rest hfront
  rw [hfront, frame, length_append, length_append, pktHead_length] at h
  omega

theorem run_exec
    (hrun : Run ((ring nBufSize).under fun s e => SumFits s e.1) (init nBufSize) events s)
    (call : Call) (hadm : Admissible s call) (hsum : SumFits s call)
    (hexec : exec call s = .ok (r, s')) :
    Run ((ring nBufSize).under fun s e => SumFits s e.1) (init nBufSize)
      (events ++ [(call, r)]) s' :=
  .snoc hrun ⟨hsum, hadm, hexec⟩

theorem wrapped_run :
    ∃ events s, Run ((ring 64).under fun s e => SumFits s e.1) (init 64) events s ∧
      s.nTailPos < s.nHeadPos := by
  have h₀ : Run ((ring 64).under fun s e => SumFits s e.1) (init 64) [] (init 64) := .nil
  have h₁ := run_exec h₀ (.pushInNoblock (replicate 24 1)) (by simp [Admissible])
    (.inl (by decide)) rfl
  have h₂ := run_exec h₁ (.pushInNoblockParts (replicate 20 2) (replicate 4 3))
    (by simp [Admissible]) (.inl (by decide)) rfl
  have h₃ := run_exec h₂ (.popOut 56) (admissible_popOut (by decide)) trivial rfl
  have h₄ := run_exec h₃ (.pushInNoblock []) (by simp [Admissible]) (.inl (by decide)) rfl
  exact ⟨_, _, h₄, by decide⟩

/-- The ring is a queue as long as the sum in its space check does not overflow, which is exactly
when a call completes. Refused packets change nothing but a counter. -/
theorem loopBuf_refines_fifo {nBufSize : Int} (hmin : 16 ≤ nBufSize)
    (hmax : nBufSize + 20 ≤ 2147483647) {events : List (Call × Returned)} {s : CLoopBuf}
    (hrun : Run ((ring nBufSize).under fun s e => SumFits s e.1) (init nBufSize) events s) :
    ∃ q, Run fifo [] events q ∧ Represents nBufSize s q ∧
      (0 ≤ s.nHeadPos ∧ s.nHeadPos ≤ nBufSize) ∧ (0 ≤ s.nTailPos ∧ s.nTailPos ≤ nBufSize) ∧
      ∀ call, Admissible s call →
        ((∃ r, exec call s = .ok r) ↔ SumFits s call) ∧
        ∀ r s', exec call s = .ok (r, s') → Refines nBufSize s q call r s' := by
  obtain ⟨q, hq, hrep⟩ := hrun.simulation ring_refines_step (init_represents hmin hmax)
  have hv := hrep.valid
  have hsize := hrep.size_eq
  refine ⟨q, hq, hrep, ⟨hv.head_nonneg, hsize ▸ hv.head_le⟩,
    ⟨hv.tail_nonneg, hsize ▸ hv.tail_le⟩, fun call hadm => ?_⟩
  by_cases hsum : SumFits s call
  · obtain ⟨r, s', hexec, href⟩ := exec_refines hrep hadm hsum
    refine ⟨⟨fun _ => hsum, fun _ => ⟨_, hexec⟩⟩, fun r₁ s₁ hexec₁ => ?_⟩
    rw [hexec] at hexec₁
    cases hexec₁
    exact href
  · have hover := exec_overflow hv.toBounded hsum
    refine ⟨⟨fun ⟨r, hr⟩ => ?_, fun h => absurd h hsum⟩, fun r₁ s₁ hexec₁ => ?_⟩
    · rw [hover] at hr
      cases hr
    · rw [hover] at hexec₁
      cases hexec₁

theorem loopBuf_wrapped_fifo :
    ∃ events s q, Run fifo [] events q ∧ Represents 64 s q ∧ s.nTailPos < s.nHeadPos ∧
      ∃ r, exec (.pushInNoblock [7]) s = .ok r := by
  obtain ⟨events, s, hrun, hlt⟩ := wrapped_run
  obtain ⟨q, hq, hrep, -, -, hcalls⟩ := loopBuf_refines_fifo (by decide) (by decide) hrun
  have hadm : Admissible s (.pushInNoblock [7]) := by simp [Admissible]
  exact ⟨events, s, q, hq, hrep, hlt, (hcalls _ hadm).1.mpr (.inr (by decide))⟩

/-- A payload whose length with the header is `INT_MAX` overflows the sum of the space check. -/
theorem push_overflows_space_check :
    ∃ events s, Run (ring 64) (init 64) events s ∧
      Admissible s (.pushInNoblock (replicate 2147483639 0)) ∧
      exec (.pushInNoblock (replicate 2147483639 0)) s = .error .intOverflow := by
  obtain ⟨events, s, hrun, hlt⟩ := wrapped_run
  obtain ⟨q, -, hrep⟩ := hrun.simulation ring_refines_step
    (init_represents (by decide) (by decide))
  have hadm : Admissible s (.pushInNoblock (replicate 2147483639 0)) := by
    simp only [Admissible, length_replicate]
    omega
  refine ⟨events, s, hrun.of_under, hadm, exec_overflow hrep.valid.toBounded ?_⟩
  simp only [SumFits, length_replicate]
  omega

end Utsuite.LoopBufQueue
