import Utsuite.LoopBufQueue

namespace Utsuite.LoopBufPop

open ByteWords ByteMem RingSpan LoopBuf LoopBufQueue Transitions List

section

variable {s : CLoopBuf}

theorem advanced_bounded (hb : Bounded s) (hin : Inside s n) : Bounded (advanced s n) := by
  obtain ⟨hsize, hh0, hh, ht0, ht⟩ := hb
  rw [Inside] at hin
  refine ⟨hsize, ?_, ?_, ht0, ht⟩ <;> simp only [advanced, readHead] <;> split at hin <;> split <;>
    omega

theorem unread_advanced (hb : Bounded s) (hn : n ≤ (unread s).length) :
    unread (advanced s n) = (unread s).drop n := by
  have hlen : ((unread s).take n).length = n := length_take_of_le hn
  have hrest := (readSpan_eq_of_span (Int.toNat_le_toNat hb.head_le)
    (take_append_drop n (unread s)).symm).2
  rw [hlen] at hrest
  simpa only [unread, advanced, Int.toNat_natCast] using hrest

theorem popData_take (hb : Bounded s) (hn : n ≤ (unread s).length) :
    popData s.nTailPos n s = pure ((unread s).take n, advanced s n) := by
  rw [popData_eq hb (inside_of_le hb hn), readSpan_eq_take hb hn]

theorem advanced_zero (hb : Bounded s) : advanced s 0 = s := by
  have hnonneg := hb.head_nonneg
  have hle := hb.head_le
  have hhead : (readHead s.m_nBufSize.toNat s.nHeadPos.toNat s.nTailPos.toNat 0 : Int) =
      s.nHeadPos := by
    rw [readHead]
    split <;> omega
  rw [advanced, hhead]

theorem advanced_advanced (hb : Bounded s) (h : a + b ≤ (unread s).length) :
    advanced (advanced s a) b = advanced s (a + b) := by
  obtain ⟨hsize, hh0, hh, ht0, ht⟩ := hb
  rw [unread, span_length] at h
  have hhead : readHead s.m_nBufSize.toNat
      (readHead s.m_nBufSize.toNat s.nHeadPos.toNat s.nTailPos.toNat a) s.nTailPos.toNat b =
        readHead s.m_nBufSize.toNat s.nHeadPos.toNat s.nTailPos.toNat (a + b) := by
    simp only [readHead]
    split at h <;> split_ifs <;> omega
  simp [advanced, hhead]

theorem copyOut_error (h : ¬(0 ≤ pos ∧ 0 ≤ len ∧ pos + len ≤ s.m_nBufSize)) :
    copyOut s pos len = throw .outOfRange := by
  rw [copyOut, if_neg h]
  rfl

theorem popData_outside (hb : Bounded s) {n : Nat} (hn : (n : Int) ≤ 2147483647)
    (hout : ¬Inside s n) : popData s.nTailPos n s = throw .outOfRange := by
  obtain ⟨hsize, hh0, hh, ht0, ht⟩ := hb
  rw [Inside] at hout
  rw [popData]
  by_cases hle : s.nHeadPos ≤ s.nTailPos
  · rw [if_pos hle] at hout
    rw [if_pos hle, copyOut_error (by omega)]
    rfl
  · rw [if_neg hle] at hout
    rw [if_neg hle, int_eq (by omega), pure_bind, if_neg (by omega), copyOut_eq (by omega),
      pure_bind, int_eq (by omega), pure_bind, copyOut_error (by omega)]
    rfl

theorem popData_negative (hb : Bounded s) (hn : n < 0) :
    popData nTailPos n s = throw .outOfRange := by
  obtain ⟨hsize, hh0, hh, ht0, ht⟩ := hb
  rw [popData]
  split
  · rw [copyOut_error (by omega)]
    rfl
  · rw [int_eq (by omega), pure_bind, if_pos (by omega), copyOut_error (by omega)]
    rfl

end

def Synced (s : CLoopBuf) : Prop :=
  (readSpan s.m_pShmBuf s.m_nBufSize.toNat s.nHeadPos.toNat s.nTailPos.toNat 8).drop 4 = syncWord

def lost (s : CLoopBuf) : CLoopBuf :=
  { setZero (advanced s 8) with notices := s.notices ++ [.runError] }

section

variable {s : CLoopBuf} {nDataBufSize : Int}

def waiting (s : CLoopBuf) (nDataBufSize : Int) : CLoopBuf :=
  starved (if lengthWord s > 1024 ∧ (lengthWord s > nDataBufSize ∨ lengthWord s < 0) then
    { setZero s with notices := s.notices ++ [.queueShareMemError (lengthWord s) nDataBufSize] }
  else s)

theorem popOut_waiting (hb : Bounded s) (h : ¬Enough s) :
    popOut nDataBufSize s = pure (⟨0, []⟩, waiting s nDataBufSize) := by
  rw [popOut, isPopSizeEnough_eq hb, pure_bind, decide_eq_false h]
  rfl

theorem popOut_outside (hb : Bounded s) (h : Enough s) (hout : ¬Inside s 8) :
    popOut nDataBufSize s = throw .outOfRange := by
  have hpop : popData s.nTailPos LOOP_PKT_HEAD_LEN s = throw .outOfRange :=
    popData_outside hb (by decide) hout
  rw [popOut, isPopSizeEnough_eq hb, pure_bind, decide_eq_true h]
  dsimp only
  rw [if_neg (by decide), hpop]
  rfl

theorem popOut_lost (hb : Bounded s) (h : Enough s) (hin : Inside s 8) (hsync : ¬Synced s) :
    popOut nDataBufSize s = pure (⟨0, []⟩, lost s) := by
  have hpop : popData s.nTailPos LOOP_PKT_HEAD_LEN s = _ := popData_eq hb hin
  rw [popOut, isPopSizeEnough_eq hb, pure_bind, decide_eq_true h]
  dsimp only
  rw [if_neg (by decide), hpop, pure_bind]
  exact if_pos hsync

theorem popOut_synced (hb : Bounded s) (h : Enough s) (hin : Inside s 8) (hsync : Synced s) :
    popOut nDataBufSize s = (do
      let nDataSize ← int (lengthWord s - 8)
      if nDataBufSize < nDataSize then pure (⟨-1, []⟩, advanced s 8)
      else
        let (data, s') ← popData s.nTailPos nDataSize (advanced s 8)
        pure (⟨nDataSize, data⟩, s')) := by
  have hpop : popData s.nTailPos LOOP_PKT_HEAD_LEN s = _ := popData_eq hb hin
  rw [popOut, isPopSizeEnough_eq hb, pure_bind, decide_eq_true h]
  dsimp only
  rw [if_neg (by decide), hpop, pure_bind]
  exact if_neg (not_not.mpr hsync)

theorem unread_length_le (hb : Bounded s) : ((unread s).length : Int) ≤ s.m_nBufSize := by
  obtain ⟨hsize, hh0, hh, ht0, ht⟩ := hb
  rw [unread, span_length]
  split <;> omega

theorem popOut_refused (hb : Bounded s) (h : Enough s) (hin : Inside s 8) (hsync : Synced s)
    (hword : 8 ≤ lengthWord s) (hbuf : nDataBufSize < lengthWord s - 8) :
    popOut nDataBufSize s = pure (⟨-1, []⟩, advanced s 8) := by
  have hheld := h.2.1
  have hlen := unread_length_le hb
  have hsize := hb.size_le
  rw [popOut_synced hb h hin hsync, int_eq (by omega), pure_bind, if_pos hbuf]

theorem popOut_packet (hb : Bounded s) (h : Enough s) (hin : Inside s 8) (hsync : Synced s)
    {n : Nat} (hword : lengthWord s = n + 8) (hbuf : n ≤ nDataBufSize) :
    popOut nDataBufSize s =
      pure (⟨n, ((unread s).drop 8).take n⟩, advanced (advanced s 8) n) := by
  have hheld := h.2.1
  have hlen := unread_length_le hb
  have hsize := hb.size_le
  have hunread := unread_advanced hb (by omega : 8 ≤ (unread s).length)
  have hpop : popData s.nTailPos n (advanced s 8) = _ :=
    popData_take (advanced_bounded hb hin) (by rw [hunread, length_drop]; omega)
  rw [popOut_synced hb h hin hsync, hword, Int.add_sub_cancel, int_eq (by omega), pure_bind,
    if_neg (by omega), hpop, hunread, pure_bind]

/-- A length word that does not cover the header makes the size of the copy negative. -/
theorem popOut_negative (hb : Bounded s) (h : Enough s) (hin : Inside s 8) (hsync : Synced s)
    (hword : lengthWord s < 8) (hbuf : 0 ≤ nDataBufSize) :
    ∃ e, popOut nDataBufSize s = .error e := by
  rw [popOut_synced hb h hin hsync]
  by_cases hint : -2147483648 ≤ lengthWord s - 8
  · rw [int_eq (by omega), pure_bind, if_neg (by omega),
      popData_negative (advanced_bounded hb hin) (by omega)]
    exact ⟨_, rfl⟩
  · rw [int, if_neg (by rw [INT_MAX]; omega)]
    exact ⟨_, rfl⟩

end

def Damaged (s : CLoopBuf) : Prop := Enough s ∧ lengthWord s < 8 ∧ (Inside s 8 → Synced s)

def Moved (s s' : CLoopBuf) : Prop :=
  s'.m_nBufSize = s.m_nBufSize ∧ ((s'.nHeadPos = 0 ∧ s'.nTailPos = 0) ∨
    (s'.nTailPos = s.nTailPos ∧ ∃ k ≤ (unread s).length, s'.nHeadPos = (advanced s k).nHeadPos))

section

variable {s : CLoopBuf} {nDataBufSize : Int}

theorem moved_waiting (hb : Bounded s) : Moved s (waiting s nDataBufSize) := by
  rw [waiting]
  split
  · exact ⟨rfl, .inl ⟨rfl, rfl⟩⟩
  · exact ⟨rfl, .inr ⟨rfl, 0, Nat.zero_le _, by rw [advanced_zero hb]; rfl⟩⟩

theorem moved_advanced (hk : k ≤ (unread s).length) : Moved s (advanced s k) :=
  ⟨rfl, .inr ⟨rfl, k, hk, rfl⟩⟩

theorem popOut_error (hb : Bounded s) (hbuf : 0 ≤ nDataBufSize) (h : Damaged s) :
    ∃ e, popOut nDataBufSize s = .error e := by
  obtain ⟨henough, hword, hsync⟩ := h
  by_cases hin : Inside s 8
  · exact popOut_negative hb henough hin (hsync hin) hword hbuf
  · exact ⟨_, popOut_outside hb henough hin⟩

theorem popOut_ok (hb : Bounded s) (hbuf : 0 ≤ nDataBufSize) (h : ¬Damaged s) :
    ∃ r s', popOut nDataBufSize s = .ok (r, s') ∧ (r.lpData.length : Int) ≤ nDataBufSize ∧
      Moved s s' := by
  by_cases henough : Enough s
  · have hheld := henough.2.1
    by_cases hword : lengthWord s < 8
    · have hdamaged : ¬(Inside s 8 → Synced s) := fun hsync => h ⟨henough, hword, hsync⟩
      obtain ⟨hin, hsync⟩ := Classical.not_imp.mp hdamaged
      exact ⟨_, _, popOut_lost hb henough hin hsync, hbuf, rfl, .inl ⟨rfl, rfl⟩⟩
    · have hall : 8 ≤ (unread s).length := by omega
      have hin := inside_of_le hb hall
      by_cases hsync : Synced s
      · obtain ⟨n, hn⟩ : ∃ n : Nat, lengthWord s = n + 8 :=
          ⟨(lengthWord s - 8).toNat, by omega⟩
        by_cases hfits : (n : Int) ≤ nDataBufSize
        · refine ⟨_, _, popOut_packet hb henough hin hsync hn hfits, ?_, ?_⟩
          · exact le_trans (Int.ofNat_le.mpr (length_take_le _ _)) hfits
          · have hboth : 8 + n ≤ (unread s).length := by omega
            rw [advanced_advanced hb hboth]
            exact moved_advanced hboth
        · exact ⟨_, _, popOut_refused hb henough hin hsync (by omega) (by omega), hbuf,
            moved_advanced hall⟩
      · exact ⟨_, _, popOut_lost hb henough hin hsync, hbuf, rfl, .inl ⟨rfl, rfl⟩⟩
  · exact ⟨_, _, popOut_waiting hb henough, hbuf, moved_waiting hb⟩

theorem Moved.bounded (h : Moved s s') (hb : Bounded s) : Bounded s' := by
  obtain ⟨hsize, ⟨hhead, htail⟩ | ⟨htail, k, hk, hhead⟩⟩ := h
  · have hnonneg := hb.head_nonneg
    have hle := hb.head_le
    have hmax := hb.size_le
    constructor <;> omega
  · obtain ⟨h1, h2, h3, h4, h5⟩ := advanced_bounded hb (inside_of_le hb hk)
    rw [← hhead] at h2 h3
    have hsame : (advanced s k).m_nBufSize = s.m_nBufSize := rfl
    have hsameTail : (advanced s k).nTailPos = s.nTailPos := rfl
    constructor <;> omega

theorem Moved.valid (h : Moved s s') (hv : Valid s) : Valid s' := by
  refine ⟨h.bounded hv.toBounded, ?_⟩
  obtain ⟨-, ⟨hhead, htail⟩ | ⟨htail, k, hk, hhead⟩⟩ := h
  · rw [hhead, htail]
    exact id
  · rw [hhead, htail]
    exact (advanced_valid hv hk).wrapped

end

/-- The call returns, copies no more than the buffer holds and leaves the head inside the ring. -/
def Tolerated (nDataBufSize : Int) (s : CLoopBuf) : Prop :=
  ∃ r s', popOut nDataBufSize s = .ok (r, s') ∧ (r.lpData.length : Int) ≤ nDataBufSize ∧
    0 ≤ s'.nHeadPos ∧ s'.nHeadPos ≤ s'.m_nBufSize

/-- `PopOut` tolerates the contents of a ring unless a length that is too small passes its checks.
-/
theorem popOut_tolerates_iff {s : CLoopBuf} (hb : Bounded s) {nDataBufSize : Int}
    (hbuf : 0 ≤ nDataBufSize) : Tolerated nDataBufSize s ↔ ¬Damaged s := by
  constructor
  · rintro ⟨r, s', hok, -⟩ hdamaged
    obtain ⟨e, herror⟩ := popOut_error hb hbuf hdamaged
    rw [hok] at herror
    cases herror
  · intro hsound
    obtain ⟨r, s', hok, hlen, hmoved⟩ := popOut_ok hb hbuf hsound
    have hb' := hmoved.bounded hb
    exact ⟨r, s', hok, hlen, hb'.head_nonneg, hb'.head_le⟩

def filledRing : CLoopBuf := { init 64 with m_pShmBuf := fun _ => 0x40, nHeadPos := 60, nTailPos := 20 }

theorem popOut_tolerates_filledRing : Tolerated 10 filledRing ∧ ¬Damaged filledRing := by
  have hb : Bounded filledRing := by constructor <;> decide
  have hsound : ¬Damaged filledRing := fun h => absurd h.2.1 (by decide)
  exact ⟨(popOut_tolerates_iff hb (by decide)).mpr hsound, hsound⟩

/-- A ring of zero bytes has the length word 0, so `memcpy` is called with the size -8. -/
theorem short_length_copies_negative_size :
    ∃ s, Bounded s ∧ s.m_nBufSize = 64 ∧ popOut 100 s = .error .outOfRange := by
  refine ⟨{ init 64 with m_pShmBuf := store (fun _ => 0) 0 (pktHead 0), nTailPos := 8 }, ?_, rfl, rfl⟩
  constructor <;> decide

def popAll : List Int → CLoopBuf → Except Fault (List Returned × CLoopBuf)
  | [], s => pure ([], s)
  | nDataBufSize :: sizes, s => do
    let (r, s) ← popOut nDataBufSize s
    let (rs, s) ← popAll sizes s
    pure (r :: rs, s)

/-- The ring holds these packets, and each of them will be returned to a buffer that is large
enough. -/
def Kept (nBufSize : Int) (s : CLoopBuf) (q : List Bytes) : Prop :=
  Represents nBufSize s q ∧
    ∀ sizes, List.Forall₂ (fun (p : Bytes) (size : Int) => (p.length : Int) ≤ size) q sizes →
      ∃ s', popAll sizes s = .ok (q.map fun p => ⟨p.length, p⟩, s')

section

variable {nBufSize nDataBufSize : Int} {s : CLoopBuf} {p : Bytes} {q : List Bytes}

theorem popOut_front (h : Represents nBufSize s (p :: q)) (hbuf : (p.length : Int) ≤ nDataBufSize) :
    ∃ s', popOut nDataBufSize s = .ok (⟨p.length, p⟩, s') ∧ Represents nBufSize s' q := by
  obtain ⟨hv, hsize, hunread, hnotices⟩ := h
  obtain ⟨s', hpop, hv', hrest, hsize', -, hnotices'⟩ := popOut_frame hv hunread hbuf
  exact ⟨s', hpop, hv', hsize'.trans hsize, hrest, hnotices'.trans hnotices⟩

theorem popAll_returns (h : Represents nBufSize s q)
    (hfits : List.Forall₂ (fun (p : Bytes) (size : Int) => (p.length : Int) ≤ size) q sizes) :
    ∃ s', popAll sizes s = .ok (q.map fun p => ⟨p.length, p⟩, s') := by
  induction hfits generalizing s with
  | nil => exact ⟨s, rfl⟩
  | cons hfit _ ih =>
    obtain ⟨s₁, hpop, h₁⟩ := popOut_front h hfit
    obtain ⟨s', hrest⟩ := ih h₁
    refine ⟨s', ?_⟩
    rw [popAll, hpop]
    change (popAll _ s₁ >>= _) = _
    rw [hrest]
    rfl

theorem popOut_front_refused (h : Represents nBufSize s (p :: q))
    (hbuf : nDataBufSize < (p.length : Int)) :
    popOut nDataBufSize s = .ok (⟨-1, []⟩, advanced s 8) ∧
      unread (advanced s 8) = p ++ (q.map frame).flatten := by
  have hb := h.valid.toBounded
  have hsplit : unread s = pktHead ((p.length + 8 : Nat) : Int) ++ (p ++ (q.map frame).flatten) := by
    rw [h.unread_eq, map_cons, flatten_cons, frame, append_assoc]
    rfl
  have hlen : p.length + 8 ≤ (unread s).length := by
    rw [hsplit, length_append, pktHead_length, length_append]
    omega
  have hword : lengthWord s = ((p.length + 8 : Nat) : Int) :=
    lengthWord_head hsplit (hlen.trans_lt (unread_length_lt h.valid))
  have henough : Enough s := ⟨by omega, by omega, fun _ => by omega⟩
  have hsync : Synced s := by
    rw [Synced, readSpan_eq_take hb (by omega), hsplit, take_left' (pktHead_length _), pktHead,
      drop_left' (leBytes_length _ _)]
  have hrest : unread (advanced s 8) = p ++ (q.map frame).flatten := by
    rw [unread_advanced hb (by omega), hsplit, drop_left' (pktHead_length _)]
  exact ⟨popOut_refused hb henough (inside_of_le hb (by omega)) hsync (by omega) (by omega), hrest⟩

theorem Kept.of_represents (h : Represents nBufSize s q) : Kept nBufSize s q :=
  ⟨h, fun _ => popAll_returns h⟩

theorem starved_represents (h : Represents nBufSize s q) : Represents nBufSize (starved s) q :=
  ⟨{ h.valid with }, h.size_eq, h.unread_eq, h.notices_eq⟩

/-- A pop keeps all packets, or takes exactly the first one, if and only if the buffer is large
enough for it. A refused pop loses the packet. -/
theorem popOut_keeps_packets_iff (h : Represents nBufSize s q) (nDataBufSize : Int) :
    ∃ r s', popOut nDataBufSize s = .ok (r, s') ∧
      ((r.ret = -1 → Kept nBufSize s' q) ↔
        ∀ p rest, q = p :: rest → (p.length : Int) ≤ nDataBufSize) ∧
      ((∀ p rest, q = p :: rest → (p.length : Int) ≤ nDataBufSize) →
        r.ret ≠ -1 ∧ Kept nBufSize s' q.tail) := by
  cases q with
  | nil =>
    have hempty := popOut_empty h.valid h.unread_eq nDataBufSize
    refine ⟨_, _, hempty, ⟨fun _ => nofun, fun _ hret => ?_⟩, fun _ => ⟨nofun, ?_⟩⟩
    · exact absurd hret (by decide)
    · exact .of_represents (starved_represents h)
  | cons p q =>
    by_cases hbuf : (p.length : Int) ≤ nDataBufSize
    · obtain ⟨s', hpop, hrest⟩ := popOut_front h hbuf
      have hret : (p.length : Int) ≠ -1 := by omega
      refine ⟨_, s', hpop, ⟨fun _ p' rest heq => ?_, fun _ heq => absurd heq hret⟩,
        fun _ => ⟨hret, .of_represents hrest⟩⟩
      cases heq
      exact hbuf
    · obtain ⟨hpop, hunread⟩ := popOut_front_refused h (not_le.mp hbuf)
      refine ⟨_, _, hpop, ⟨fun hkept => ?_, fun hfits => absurd (hfits p q rfl) hbuf⟩,
        fun hfits => absurd (hfits p q rfl) hbuf⟩
      -- eight bytes are missing, so the same packets cannot be there
      have hsame := (hkept rfl).1.unread_eq
      rw [hunread, map_cons, flatten_cons, frame, append_assoc] at hsame
      have hlengths := congrArg List.length hsame
      simp only [length_append, pktHead_length] at hlengths
      omega

end

theorem onePacket_represents :
    ∃ s, pushInNoblock [1, 2, 3] (init 64) = .ok (⟨3, []⟩, s) ∧ Represents 64 s [[1, 2, 3]] := by
  have hinit : Represents 64 (init 64) [] := init_represents (by decide) (by decide)
  obtain ⟨-, hno⟩ | ⟨-, s, hyes, happ⟩ :=
    (pushInNoblock_offers [1, 2, 3]).offered _ hinit.valid.toBounded ⟨by decide, .inl (by decide)⟩
  · cases hno
  · refine ⟨s, hyes, happ.valid hinit.valid, happ.size_eq, ?_, happ.notices_eq⟩
    rw [happ.unread_eq]
    rfl

theorem popOut_keeps_packets_onePacket :
    ∃ s r s', Represents 64 s [[1, 2, 3]] ∧ popOut 3 s = .ok (r, s') ∧ Kept 64 s' [] := by
  obtain ⟨s, -, hs⟩ := onePacket_represents
  obtain ⟨r, s', hpop, -, hkept⟩ := popOut_keeps_packets_iff hs 3
  have hfits : ∀ (p : Bytes) rest, [[1, 2, 3]] = p :: rest → (p.length : Int) ≤ 3 := by
    rintro p rest ⟨⟩
    decide
  exact ⟨s, r, s', hs, hpop, (hkept hfits).2⟩

/-- A pop with room for two bytes is refused, and the packet of three bytes is lost with it. -/
theorem refused_pop_loses_packet :
    ∃ s s₁ s₂, pushInNoblock [1, 2, 3] (init 64) = .ok (⟨3, []⟩, s) ∧
      popOut 2 s = .ok (⟨-1, []⟩, s₁) ∧ popOut 100 s₁ = .ok (⟨0, []⟩, s₂) ∧
      unread s₁ = [1, 2, 3] :=
  ⟨_, _, _, rfl, rfl, rfl, rfl⟩

end Utsuite.LoopBufPop
