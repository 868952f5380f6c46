import Utsuite.LoopBufPop

namespace Utsuite.LoopBufPush

open ByteWords RingSpan LoopBuf LoopBufQueue LoopBufPop Transitions List

def attempts (call : CLoopBuf → Except Fault (Returned × CLoopBuf)) :
    Nat → CLoopBuf → Except Fault (Returned × CLoopBuf)
  | 0, s => call s
  | again + 1, s => do
    let (r, s) ← call s
    if r.ret = 0 then attempts call again s else pure (r, s)

def pushIn (lpData : Bytes) : CLoopBuf → Except Fault (Returned × CLoopBuf) :=
  attempts (pushInNoblock lpData) 2

def pushInParts (lpData packet : Bytes) : CLoopBuf → Except Fault (Returned × CLoopBuf) :=
  attempts (pushInNoblockParts lpData packet) 2

/-- The packet goes in at most once, and the call returns 0 exactly if it did not. -/
def AppendsOnce (call : CLoopBuf → Except Fault (Returned × CLoopBuf)) (p : Bytes)
    (s : CLoopBuf) : Prop :=
  ∃ r s' k, call s = .ok (r, s') ∧ unread s' = unread s ++ (replicate k (frame p)).flatten ∧
    k ≤ 1 ∧ (r.ret = 0 ↔ k = 0)

section

variable {call : CLoopBuf → Except Fault (Returned × CLoopBuf)} {p : Bytes} {s : CLoopBuf}

theorem refused_bounded (hb : Bounded s) : Bounded (refused s) := { hb with }

theorem attempts_again (h : call s = .ok (r, s₁)) (hr : r.ret = 0) (again : Nat) :
    attempts call (again + 1) s = attempts call again s₁ := by
  rw [attempts, h]
  exact if_pos hr

theorem attempts_done (h : call s = .ok (r, s₁)) (hr : r.ret ≠ 0) (again : Nat) :
    attempts call again s = .ok (r, s₁) := by
  cases again with
  | zero => exact h
  | succ again =>
    rw [attempts, h]
    exact if_neg hr

theorem length_ne_zero (hp : p ≠ []) : (p.length : Int) ≠ 0 := by
  rw [Nat.cast_ne_zero, Ne, length_eq_zero_iff]
  exact hp

theorem appendsOnce_of_appended (hp : p ≠ []) (hyes : call s = .ok (⟨p.length, []⟩, s'))
    (happ : Appended s s' (frame p)) : AppendsOnce call p s := by
  refine ⟨⟨p.length, []⟩, s', 1, hyes, ?_, le_rfl, iff_of_false (length_ne_zero hp) one_ne_zero⟩
  rw [happ.unread_eq, replicate_one, flatten_singleton]

theorem attempts_payload (hcall : Offers call p) (hp : p ≠ []) (again : Nat) (hb : Bounded s)
    (hsum : NoOverflow s p.length) : AppendsOnce (attempts call again) p s := by
  induction again generalizing s with
  | zero =>
    obtain ⟨-, hno⟩ | ⟨-, s', hyes, happ⟩ := hcall.offered s hb hsum
    · exact ⟨_, _, 0, hno, (append_nil _).symm, Nat.zero_le 1, iff_of_true rfl rfl⟩
    · exact appendsOnce_of_appended hp hyes happ
  | succ again ih =>
    obtain ⟨-, hno⟩ | ⟨-, s', hyes, happ⟩ := hcall.offered s hb hsum
    · obtain ⟨r, s', k, hrest, hkept⟩ := ih (refused_bounded hb) hsum
      exact ⟨r, s', k, (attempts_again hno rfl again).trans hrest, hkept⟩
    · exact appendsOnce_of_appended hp (attempts_done hyes (length_ne_zero hp) (again + 1)) happ

theorem noOverflow_nil (s : CLoopBuf) : NoOverflow s ([] : Bytes).length :=
  ⟨by decide, .inr (by decide)⟩

theorem attempts_empty (hcall : Offers call []) (again : Nat) (hb : Bounded s) :
    ∃ s' k, attempts call again s = .ok (⟨0, []⟩, s') ∧
      unread s' = unread s ++ (replicate k (frame [])).flatten ∧ (0 < k ↔ Space s 8) := by
  induction again generalizing s with
  | zero =>
    obtain ⟨hspace, hno⟩ | ⟨hspace, s', hyes, happ⟩ := hcall.offered s hb (noOverflow_nil s)
    · exact ⟨_, 0, hno, (append_nil _).symm, iff_of_false (lt_irrefl 0) hspace⟩
    · refine ⟨s', 1, hyes, ?_, iff_of_true Nat.zero_lt_one hspace⟩
      rw [happ.unread_eq, replicate_one, flatten_singleton]
  | succ again ih =>
    obtain ⟨hspace, hno⟩ | ⟨hspace, s₁, hyes, happ⟩ := hcall.offered s hb (noOverflow_nil s)
    · obtain ⟨s', k, hrest, hunread, hk⟩ := ih (refused_bounded hb)
      exact ⟨s', k, (attempts_again hno rfl again).trans hrest, hunread, hk⟩
    · obtain ⟨s', k, hrest, hunread, -⟩ := ih happ.bounded
      refine ⟨s', k + 1, (attempts_again hyes rfl again).trans hrest, ?_,
        iff_of_true k.succ_pos hspace⟩
      rw [hunread, happ.unread_eq, replicate_succ, flatten_cons, append_assoc]

theorem attempts_overflow (hcall : Offers call p) (hb : Bounded s) (hsum : ¬NoOverflow s p.length)
    (again : Nat) : attempts call again s = .error .intOverflow := by
  have herror := hcall.overflow s hb hsum
  cases again with
  | zero => exact herror
  | succ again =>
    rw [attempts, herror]
    rfl

theorem length_copies (p : Bytes) (k : Nat) :
    (replicate k (frame p)).flatten.length = k * (p.length + 8) := by
  rw [length_flatten, map_replicate, sum_replicate_nat, frame, length_append,
    pktHead_length, add_comm 8]

theorem appendsOnce_iff (hcall : Offers call p) (again : Nat) (hb : Bounded s) :
    AppendsOnce (attempts call again) p s ↔
      NoOverflow s p.length ∧ (p = [] → ¬Space s 8) := by
  by_cases hsum : NoOverflow s p.length
  · by_cases hp : p = []
    · subst hp
      obtain ⟨s', k, hall, hunread, hk⟩ := attempts_empty hcall again hb
      constructor
      · rintro ⟨r, s₁, k₁, hok, hunread₁, -, hret⟩
        rw [hall] at hok
        cases hok
        refine ⟨hsum, fun _ hspace => ?_⟩
        -- the number of copies can be read off the ring
        have hsame := congrArg length (hunread.symm.trans hunread₁)
        rw [length_append, length_append, length_copies, length_copies, hret.mp rfl,
          length_nil] at hsame
        have hpos := hk.mpr hspace
        omega
      · rintro ⟨-, hfull⟩
        have hnone : k = 0 := Nat.eq_zero_of_not_pos fun hpos => hfull rfl (hk.mp hpos)
        exact ⟨_, s', k, hall, hunread, hnone ▸ Nat.zero_le 1, iff_of_true rfl hnone⟩
    · exact iff_of_true (attempts_payload hcall hp again hb hsum) ⟨hsum, fun h => absurd h hp⟩
  · refine iff_of_false ?_ fun h => hsum h.1
    rintro ⟨r, s', k, hok, -⟩
    rw [attempts_overflow hcall hb hsum again] at hok
    cases hok

end

/-- The loop around `PushInNoblock` appends a packet once if no length overflows and the packet is
not empty. With no payload, the returned size 0 is taken for a refusal. -/
theorem pushIn_appends_once_iff {s : CLoopBuf} (hb : Bounded s) :
    (∀ lpData, AppendsOnce (pushIn lpData) lpData s ↔
      NoOverflow s lpData.length ∧ (lpData = [] → ¬Space s 8)) ∧
    ∀ lpData packet, AppendsOnce (pushInParts lpData packet) (lpData ++ packet) s ↔
      NoOverflow s (lpData ++ packet).length ∧ (lpData ++ packet = [] → ¬Space s 8) :=
  ⟨fun lpData => appendsOnce_iff (pushInNoblock_offers lpData) 2 hb,
    fun lpData packet => appendsOnce_iff (pushInNoblockParts_offers lpData packet) 2 hb⟩

theorem init_bounded : Bounded (init 64) := by constructor <;> decide

theorem pushIn_appends_once_init :
    AppendsOnce (pushIn [7]) [7] (init 64) ∧ ¬AppendsOnce (pushIn []) [] (init 64) := by
  obtain ⟨hone, -⟩ := pushIn_appends_once_iff init_bounded
  refine ⟨(hone [7]).mpr ⟨⟨by decide, .inl (by decide)⟩, nofun⟩, fun honce => ?_⟩
  exact ((hone []).mp honce).2 rfl (by decide)

/-- The empty packet is appended three times, and the call reports that nothing went in. -/
theorem empty_packet_pushed_thrice :
    ∃ s, pushIn [] (init 64) = .ok (⟨0, []⟩, s) ∧ unread s = frame [] ++ (frame [] ++ frame []) :=
  ⟨_, rfl, by decide⟩

def getSize (s : CLoopBuf) : Except Fault Int :=
  if s.nHeadPos ≤ s.nTailPos then int (s.nTailPos - s.nHeadPos)
  else do
    let nTempLen ← int (s.m_nBufSize - s.nHeadPos)
    int (nTempLen + s.nTailPos)

def Accepted (call : CLoopBuf → Except Fault (Returned × CLoopBuf)) (s : CLoopBuf)
    (p : Bytes) : Prop :=
  ∃ s', call s = .ok (⟨p.length, []⟩, s') ∧ Appended s s' (frame p)

def Accepts (s : CLoopBuf) (p : Bytes) : Prop :=
  Accepted (pushInNoblock p) s p ∧
    ∀ lpData packet, lpData ++ packet = p → Accepted (pushInNoblockParts lpData packet) s p

section

variable {call : CLoopBuf → Except Fault (Returned × CLoopBuf)} {p : Bytes} {s s' : CLoopBuf}

theorem accepted_iff (hcall : Offers call p) (hb : Bounded s) :
    Accepted call s p ↔ NoOverflow s p.length ∧ Space s (p.length + 8) := by
  constructor
  · rintro ⟨s', hok, happ⟩
    have hsum : NoOverflow s p.length := by
      by_contra hsum
      rw [hcall.overflow s hb hsum] at hok
      cases hok
    obtain ⟨-, hno⟩ | ⟨hspace, -⟩ := hcall.offered s hb hsum
    · -- the ring would have to be the same and to be longer
      have hs' : refused s = s' := (Prod.mk.inj (Except.ok.inj (hno.symm.trans hok))).2
      have hsame : (unread s).length = (unread s ++ frame p).length := by
        rw [← happ.unread_eq, ← hs']
        rfl
      rw [length_append, frame, length_append, pktHead_length] at hsame
      omega
    · exact ⟨hsum, hspace⟩
  · rintro ⟨hsum, hspace⟩
    obtain ⟨hfull, -⟩ | ⟨-, hyes⟩ := hcall.offered s hb hsum
    · exact absurd hspace hfull
    · exact hyes

theorem accepts_iff (hb : Bounded s) :
    Accepts s p ↔ NoOverflow s p.length ∧ Space s (p.length + 8) := by
  rw [Accepts, accepted_iff (pushInNoblock_offers p) hb]
  refine ⟨fun h => h.1, fun h => ⟨h, ?_⟩⟩
  rintro lpData packet rfl
  exact (accepted_iff (pushInNoblockParts_offers lpData packet) hb).mpr h

theorem accepts_moved (h : Moved s s') (hv : Valid s) (hp : Accepts s p) : Accepts s' p := by
  rw [accepts_iff (h.valid hv).toBounded]
  rw [accepts_iff hv.toBounded] at hp
  obtain ⟨⟨hmax, hsum⟩, hspace⟩ := hp
  obtain ⟨hsize, hh0, hh, ht0, ht⟩ := hv.toBounded
  rw [Space] at hspace
  rw [NoOverflow, Space]
  obtain ⟨hsame, ⟨hhead, htail⟩ | ⟨htail, k, hk, hhead⟩⟩ := h
  · rw [hhead, htail, hsame, if_pos le_rfl]
    split at hspace <;> omega
  · rw [unread, span_length] at hk
    rw [hhead, htail, hsame]
    simp only [advanced, readHead]
    split at hspace <;> split at hk <;> split_ifs <;> omega

end

def calls (nBufSize : Int) : System CLoopBuf (Call × Returned) where
  start := {init nBufSize}
  next s e s' := (∀ nDataBufSize, e.1 = .popOut nDataBufSize → 0 ≤ nDataBufSize) ∧
    exec e.1 s = .ok (e.2, s')

section

variable {nBufSize : Int} {s s' : CLoopBuf}

theorem popOut_moves (hv : Valid s) (hbuf : 0 ≤ nDataBufSize)
    (h : popOut nDataBufSize s = .ok (r, s')) : Moved s s' := by
  have hsound : ¬Damaged s := fun hdamaged => by
    obtain ⟨e, he⟩ := popOut_error hv.toBounded hbuf hdamaged
    rw [h] at he
    cases he
  obtain ⟨r', s'', hok, -, hmoved⟩ := popOut_ok hv.toBounded hbuf hsound
  rw [h] at hok
  cases hok
  exact hmoved

theorem valid_of_offers (hcall : Offers call p) (hv : Valid s) (h : call s = .ok (r, s')) :
    Valid s' ∧ s'.m_nBufSize = s.m_nBufSize := by
  by_cases hsum : NoOverflow s p.length
  · obtain ⟨-, hno⟩ | ⟨-, s₁, hyes, happ⟩ := hcall.offered s hv.toBounded hsum
    · rw [h] at hno
      cases hno
      exact ⟨{ hv with }, rfl⟩
    · rw [h] at hyes
      cases hyes
      exact ⟨happ.valid hv, happ.size_eq⟩
  · rw [hcall.overflow s hv.toBounded hsum] at h
    cases h

theorem calls_step (hv : Valid s) (h : (calls nBufSize).next s e s') :
    Valid s' ∧ s'.m_nBufSize = s.m_nBufSize := by
  obtain ⟨call, r⟩ := e
  obtain ⟨hbuf, hexec⟩ := h
  cases call with
  | pushInNoblock lpData => exact valid_of_offers (pushInNoblock_offers lpData) hv hexec
  | pushInNoblockParts lpData packet =>
    exact valid_of_offers (pushInNoblockParts_offers lpData packet) hv hexec
  | popOut nDataBufSize =>
    have hmoved := popOut_moves hv (hbuf nDataBufSize rfl) hexec
    exact ⟨hmoved.valid hv, hmoved.1⟩

theorem calls_valid (hmin : 16 ≤ nBufSize) (hmax : nBufSize + 20 ≤ 2147483647)
    (h : Reach (calls nBufSize) s) : Valid s ∧ s.m_nBufSize = nBufSize := by
  refine h.invariant (P := fun s => Valid s ∧ s.m_nBufSize = nBufSize) ?_ ?_
  · rintro s rfl
    exact ⟨(init_represents hmin hmax).valid, rfl⟩
  · rintro s e s' ⟨hv, hsize⟩ hnext
    obtain ⟨hv', hsize'⟩ := calls_step hv hnext
    exact ⟨hv', hsize'.trans hsize⟩

def pops (nBufSize : Int) : System CLoopBuf (Call × Returned) :=
  (calls nBufSize).under fun _ e => ∃ nDataBufSize, e.1 = .popOut nDataBufSize

theorem pops_accepts (hv : Valid s) (hp : Accepts s p) (h : Run (pops nBufSize) s events s') :
    Valid s' ∧ Accepts s' p := by
  induction h with
  | nil => exact ⟨hv, hp⟩
  | snoc _ hnext ih =>
    obtain ⟨hv₁, hp₁⟩ := ih
    obtain ⟨⟨nDataBufSize, hcall⟩, hbuf, hexec⟩ := hnext
    rw [hcall] at hexec
    have hmoved := popOut_moves hv₁ (hbuf nDataBufSize hcall) hexec
    exact ⟨hmoved.valid hv₁, accepts_moved hmoved hv₁ hp₁⟩

end

section

variable {s : CLoopBuf} {p : Bytes}

theorem getSize_eq (hv : Valid s) : getSize s = .ok (unread s).length := by
  obtain ⟨hsize, hh0, hh, ht0, ht⟩ := hv.toBounded
  rw [getSize, unread, span_length]
  split
  · rw [int_eq (by omega), if_pos (by omega)]
    exact congrArg Except.ok (by omega)
  · rw [int_eq (by omega), pure_bind, int_eq (by omega), if_neg (by omega)]
    exact congrArg Except.ok (by omega)

theorem accepts_of_free (hv : Valid s)
    (hfree : (p.length : Int) + 8 + 16 < s.m_nBufSize - (unread s).length) : Accepts s p := by
  rw [accepts_iff hv.toBounded, NoOverflow, Space]
  obtain ⟨hsize, hh0, hh, ht0, ht⟩ := hv.toBounded
  rw [unread, span_length] at hfree
  split at hfree <;> split <;> omega

theorem accepts_of_empty (hv : Valid s) (hempty : s.nHeadPos = s.nTailPos)
    (hle : (p.length : Int) + 8 ≤ s.m_nBufSize - 16) : Accepts s p := by
  rw [accepts_iff hv.toBounded, NoOverflow, Space]
  obtain ⟨hsize, hh0, hh, ht0, ht⟩ := hv.toBounded
  rw [if_pos hempty.le]
  omega

end

/-- Space for the packet and the gap is enough in every ring that a run can reach. A packet that
would be accepted stays acceptable while packets are popped. -/
theorem admission_never_starves {nBufSize : Int} (hmin : 16 ≤ nBufSize)
    (hmax : nBufSize + 20 ≤ 2147483647) :
    (∀ s, Reach (calls nBufSize) s → Valid s ∧ s.m_nBufSize = nBufSize) ∧
    ∀ s, Valid s → s.m_nBufSize = nBufSize →
      (∃ nSize, getSize s = .ok nSize ∧
        ∀ p : Bytes, (p.length : Int) + 8 + 16 < nBufSize - nSize → Accepts s p) ∧
      (s.nHeadPos = s.nTailPos →
        ∀ p : Bytes, (p.length : Int) + 8 ≤ nBufSize - 16 → Accepts s p) ∧
      ∀ p events s', Accepts s p → Run (pops nBufSize) s events s' → Accepts s' p := by
  refine ⟨fun s => calls_valid hmin hmax, ?_⟩
  rintro s hv rfl
  refine ⟨⟨_, getSize_eq hv, fun p => accepts_of_free hv⟩, fun hempty p => accepts_of_empty hv hempty, ?_⟩
  intro p events s' hp hrun
  exact (pops_accepts hv hp hrun).2

theorem admission_never_starves_init :
    Valid (init 64) ∧ Accepts (init 64) (replicate 40 7) := by
  obtain ⟨hreach, hall⟩ := admission_never_starves (by decide : (16 : Int) ≤ 64) (by decide)
  obtain ⟨hv, hsize⟩ := hreach (init 64) (.start rfl)
  exact ⟨hv, (hall _ hv hsize).2.1 rfl _ (by decide)⟩

end Utsuite.LoopBufPush
