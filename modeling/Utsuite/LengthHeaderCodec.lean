import Utsuite.ByteWords
import Utsuite.StreamDecoder

namespace Utsuite.LengthHeaderCodec

open ByteWords StreamDecoder List

def kHeaderLen : Nat := 4

/-- The length in network order. Both reads of the source give the same value. -/
def peekInt32 (buf : Bytes) : Int := signed 32 (beValue (buf.take kHeaderLen))

structure Reaction where
  messages : List Bytes
  shutdown : Bool
  buf : Bytes
  deriving DecidableEq

def onMessage (buf : Bytes) : Reaction :=
  if kHeaderLen ≤ buf.length then
    let len := peekInt32 buf
    if len > 65536 ∨ len < 0 then ⟨[], true, buf⟩
    else if len.toNat + kHeaderLen ≤ buf.length then
      let body := buf.drop kHeaderLen
      let rest := onMessage (body.drop len.toNat)
      ⟨body.take len.toNat :: rest.messages, rest.shutdown, rest.buf⟩
    else ⟨[], false, buf⟩
  else ⟨[], false, buf⟩
termination_by buf.length
decreasing_by
  simp only [length_drop, kHeaderLen] at *
  omega

def send (message : Bytes) : Bytes := beBytes kHeaderLen message.length ++ message

def deliver (buf : Bytes) : List Bytes → Reaction
  | [] => ⟨[], false, buf⟩
  | chunk :: chunks =>
    let now := onMessage (buf ++ chunk)
    let later := deliver now.buf chunks
    ⟨now.messages ++ later.messages, now.shutdown || later.shutdown, later.buf⟩

def badLength (len : Int) : Prop := len > 65536 ∨ len < 0

instance (len : Int) : Decidable (badLength len) := inferInstanceAs (Decidable (_ ∨ _))

def frameFront (buf : Bytes) : Front Bytes :=
  if buf.length < kHeaderLen then .more
  else if badLength (peekInt32 buf) then .bad
  else if buf.length < (peekInt32 buf).toNat + kHeaderLen then .more
  else .item ((buf.drop kHeaderLen).take (peekInt32 buf).toNat) ((peekInt32 buf).toNat + kHeaderLen)

theorem peekInt32_append (ys : Bytes) (h : kHeaderLen ≤ xs.length) :
    peekInt32 (xs ++ ys) = peekInt32 xs := by
  rw [peekInt32, take_append_of_le_length h, peekInt32]

theorem frameFront_item (h : frameFront buf = .item v n) :
    kHeaderLen ≤ buf.length ∧ ¬ badLength (peekInt32 buf) ∧
      (peekInt32 buf).toNat + kHeaderLen ≤ buf.length ∧
      v = (buf.drop kHeaderLen).take (peekInt32 buf).toNat ∧ n = (peekInt32 buf).toNat + kHeaderLen := by
  unfold frameFront at h
  split_ifs at h with h1 h2 h3
  cases h
  exact ⟨by omega, h2, by omega, rfl, rfl⟩

theorem frameFront_of_bad (hlen : kHeaderLen ≤ buf.length) (hbad : badLength (peekInt32 buf)) :
    frameFront buf = .bad := by
  simp [frameFront, not_lt.mpr hlen, hbad]

theorem frameFront_of_item (hlen : kHeaderLen ≤ buf.length) (hgood : ¬ badLength (peekInt32 buf))
    (hfull : (peekInt32 buf).toNat + kHeaderLen ≤ buf.length) :
    frameFront buf = .item ((buf.drop kHeaderLen).take (peekInt32 buf).toNat)
      ((peekInt32 buf).toNat + kHeaderLen) := by
  simp [frameFront, not_lt.mpr hlen, hgood, not_lt.mpr hfull]

/-- The frames that `onMessage` cuts off: a length of four bytes and then the message. -/
def frames : Decoder UInt8 Bytes where
  front := frameFront
  item_size := by
    intro xs v n h
    obtain ⟨_, _, hfull, _, rfl⟩ := frameFront_item h
    exact ⟨by simp [kHeaderLen], hfull⟩
  item_append := by
    intro xs v n ys h
    obtain ⟨hlen, hgood, hfull, rfl, rfl⟩ := frameFront_item h
    have hpeek := peekInt32_append ys hlen
    rw [frameFront_of_item (by simp only [length_append]; omega) (by rwa [hpeek])
      (by rw [hpeek, length_append]; omega), hpeek]
    congr 1
    rw [drop_append_of_le_length hlen, take_append_of_le_length]
    rw [length_drop]
    omega

theorem onMessage_eq_drain (buf : Bytes) :
    ((onMessage buf).messages, (onMessage buf).buf) = drain frames buf := by
  induction hn : buf.length using Nat.strongRecOn generalizing buf with
  | ind n ih =>
    rw [onMessage]
    by_cases hlen : kHeaderLen ≤ buf.length
    · by_cases hbad : badLength (peekInt32 buf)
      · rw [drain_of_bad frames (frameFront_of_bad hlen hbad)]
        simp [hlen, show peekInt32 buf > 65536 ∨ peekInt32 buf < 0 from hbad]
      · by_cases hfull : (peekInt32 buf).toNat + kHeaderLen ≤ buf.length
        · have hdrop : (buf.drop kHeaderLen).drop (peekInt32 buf).toNat =
              buf.drop ((peekInt32 buf).toNat + kHeaderLen) := by
            rw [drop_drop, add_comm]
          have hlt : (buf.drop ((peekInt32 buf).toNat + kHeaderLen)).length < n := by
            rw [length_drop, ← hn]
            simp only [kHeaderLen] at *
            omega
          have hrest := ih _ hlt _ rfl
          rw [drain_of_item frames (frameFront_of_item hlen hbad hfull), ← hrest]
          simp [hlen, show ¬ (peekInt32 buf > 65536 ∨ peekInt32 buf < 0) from hbad, hfull, hdrop]
        · have hmore : frameFront buf = .more := by
            simp [frameFront, not_lt.mpr hlen, hbad, not_le.mp hfull]
          rw [drain_of_more frames hmore]
          simp [hlen, show ¬ (peekInt32 buf > 65536 ∨ peekInt32 buf < 0) from hbad, hfull]
    · have hmore : frameFront buf = .more := by simp [frameFront, not_le.mp hlen]
      rw [drain_of_more frames hmore]
      simp [hlen]

theorem deliver_eq_feed (buf : Bytes) (chunks : List Bytes) :
    ((deliver buf chunks).messages, (deliver buf chunks).buf) = feed frames buf chunks := by
  induction chunks generalizing buf with
  | nil => rfl
  | cons chunk chunks ih =>
    have hnow := onMessage_eq_drain (buf ++ chunk)
    have hmsg := congrArg Prod.fst hnow
    have hbuf := congrArg Prod.snd hnow
    have hlater := ih (onMessage (buf ++ chunk)).buf
    simp only [deliver, feed, ← hmsg, ← hbuf, ← hlater]

theorem deliver_eq_drain (chunks : List Bytes) :
    ((deliver [] chunks).messages, (deliver [] chunks).buf) = drain frames chunks.flatten := by
  rw [deliver_eq_feed, feed_nil]

theorem peekInt32_send (message rest : Bytes) (h : message.length ≤ 65536) :
    peekInt32 (send message ++ rest) = message.length := by
  have htake : (send message ++ rest).take kHeaderLen = beBytes kHeaderLen message.length := by
    rw [send, append_assoc, take_append_of_le_length (by simp)]
    exact take_of_length_le (by simp)
  rw [peekInt32, htake, beValue_beBytes, Nat.mod_eq_of_lt (by simp only [kHeaderLen]; omega)]
  exact signed_of_lt (by omega)

theorem frameFront_send (message rest : Bytes) (h : message.length ≤ 65536) :
    frameFront (send message ++ rest) = .item message (send message).length := by
  have hpeek := peekInt32_send message rest h
  have hlen : (send message).length = message.length + kHeaderLen := by
    simp [send, add_comm]
  have hdrop : (send message ++ rest).drop kHeaderLen = message ++ rest := by
    rw [send, append_assoc]
    exact drop_left' (by simp)
  rw [frameFront_of_item (by rw [length_append]; omega)
    (by rw [hpeek]; simp only [badLength]; omega)
    (by rw [hpeek, Int.toNat_natCast, length_append]; omega), hpeek, Int.toNat_natCast, hdrop, hlen]
  simp

theorem drain_sent (ms : List Bytes) (hms : ∀ m ∈ ms, m.length ≤ 65536) (rest : Bytes) :
    drain frames ((ms.map send).flatten ++ rest) =
      (ms ++ (drain frames rest).1, (drain frames rest).2) :=
  drain_encoded frames send (fun m => m.length ≤ 65536)
    (fun m hm rest => frameFront_send m rest hm) ms hms rest

theorem deliver_sent (ms : List Bytes) (hms : ∀ m ∈ ms, m.length ≤ 65536) (chunks : List Bytes)
    (h : chunks.flatten = (ms.map send).flatten) :
    (deliver [] chunks).messages = ms ∧ (deliver [] chunks).buf = [] := by
  have hd := deliver_eq_drain chunks
  rw [h, ← append_nil (ms.map send).flatten, drain_sent ms hms [], drain_nil] at hd
  simpa using hd

theorem deliver_congr (chunks chunks' : List Bytes) (h : chunks.flatten = chunks'.flatten) :
    (deliver [] chunks).messages = (deliver [] chunks').messages ∧
      (deliver [] chunks).buf = (deliver [] chunks').buf := by
  have hd := deliver_eq_drain chunks
  rw [h, ← deliver_eq_drain chunks'] at hd
  simpa using hd

theorem deliver_stops (ms : List Bytes) (hms : ∀ m ∈ ms, m.length ≤ 65536) (header rest : Bytes)
    (hlen : header.length = kHeaderLen) (hbad : badLength (peekInt32 header)) (chunks : List Bytes)
    (h : chunks.flatten = (ms.map send).flatten ++ (header ++ rest)) :
    (deliver [] chunks).messages = ms := by
  have hfront : frameFront (header ++ rest) = .bad :=
    frameFront_of_bad (by rw [length_append]; omega)
      (by rwa [peekInt32_append rest (by omega)])
  have hd := deliver_eq_drain chunks
  rw [h, drain_sent ms hms, drain_of_bad frames hfront] at hd
  simpa using congrArg Prod.fst hd

/-- Messages come out once, in order and whole, however the stream is cut into chunks. Behind a bad
length there are no more messages. -/
theorem framing_segmentation_independent :
    (∀ ms : List Bytes, (∀ m ∈ ms, m.length ≤ 65536) → ∀ chunks : List Bytes,
      chunks.flatten = (ms.map send).flatten →
      (deliver [] chunks).messages = ms ∧ (deliver [] chunks).buf = []) ∧
    (∀ chunks chunks' : List Bytes, chunks.flatten = chunks'.flatten →
      (deliver [] chunks).messages = (deliver [] chunks').messages ∧
        (deliver [] chunks).buf = (deliver [] chunks').buf) ∧
    (∀ ms : List Bytes, (∀ m ∈ ms, m.length ≤ 65536) → ∀ header rest : Bytes,
      header.length = kHeaderLen → badLength (peekInt32 header) → ∀ chunks : List Bytes,
      chunks.flatten = (ms.map send).flatten ++ (header ++ rest) →
      (deliver [] chunks).messages = ms) :=
  ⟨deliver_sent, deliver_congr, deliver_stops⟩

theorem framing_two_messages :
    ((deliver [] [[0, 0], [0, 1, 7, 0], [0, 0, 0]]).messages = [[7], []] ∧
      (deliver [] [[0, 0], [0, 1, 7, 0], [0, 0, 0]]).buf = []) ∧
    (deliver [] [[0, 0, 0, 1, 7, 255], [255, 255, 255, 9]]).messages = [[7]] := by
  refine ⟨framing_segmentation_independent.1 [[7], []] (by simp) _ (by decide), ?_⟩
  exact framing_segmentation_independent.2.2 [[7]] (by simp) [255, 255, 255, 255] [9] rfl
    (by decide) _ (by decide)

end Utsuite.LengthHeaderCodec
