import Utsuite.ByteMem

namespace Utsuite.RingSpan

open ByteWords ByteMem List

def span (m : Mem) (size head tail : Nat) : Bytes :=
  if head ≤ tail then load m head (tail - head)
  else load m head (size - head) ++ load m 0 tail

def InSpan (size head tail i : Nat) : Prop :=
  if head ≤ tail then head ≤ i ∧ i < tail else (head ≤ i ∧ i < size) ∨ i < tail

def Fits (size head tail n : Nat) : Prop :=
  if head ≤ tail then tail + n ≤ size ∨ tail + n < size + head else tail + n < head

def writeTail (size head tail n : Nat) : Nat :=
  if head ≤ tail ∧ size < tail + n then tail + n - size else tail + n

def writeSpan (m : Mem) (size head tail : Nat) (bs : Bytes) : Mem :=
  if head ≤ tail ∧ size < tail + bs.length then
    store (store m tail (bs.take (size - tail))) 0 (bs.drop (size - tail))
  else store m tail bs

def readHead (size head tail n : Nat) : Nat :=
  if tail < head ∧ size < head + n then head + n - size else head + n

def readSpan (m : Mem) (size head tail n : Nat) : Bytes :=
  if tail < head ∧ size < head + n then load m head (size - head) ++ load m 0 (head + n - size)
  else load m head n

variable {size head tail n : Nat} {m : Mem} {bs : Bytes}

theorem span_length :
    (span m size head tail).length = if head ≤ tail then tail - head else size - head + tail := by
  by_cases h : head ≤ tail <;> simp [span, h]

theorem writeSpan_of_inSpan (hfit : Fits size head tail bs.length) (hi : InSpan size head tail i) :
    writeSpan m size head tail bs i = m i := by
  by_cases hle : head ≤ tail
  · rw [Fits, if_pos hle] at hfit
    rw [InSpan, if_pos hle] at hi
    by_cases hwrap : size < tail + bs.length
    · rw [writeSpan, if_pos ⟨hle, hwrap⟩, store_outside, store_outside (Or.inl hi.2)]
      right
      rw [length_drop]
      omega
    · rw [writeSpan, if_neg (by omega), store_outside (Or.inl hi.2)]
  · rw [Fits, if_neg hle] at hfit
    rw [InSpan, if_neg hle] at hi
    rw [writeSpan, if_neg (by omega)]
    apply store_outside
    omega

theorem load_writeSpan_of_inSpan (hfit : Fits size head tail bs.length)
    (h : ∀ i, start ≤ i → i < start + k → InSpan size head tail i) :
    load (writeSpan m size head tail bs) start k = load m start k :=
  load_congr fun i hi hi' => writeSpan_of_inSpan hfit (h i hi hi')

theorem span_write (hh : head ≤ size) (ht : tail ≤ size) (hfit : Fits size head tail bs.length) :
    span (writeSpan m size head tail bs) size head (writeTail size head tail bs.length) =
      span m size head tail ++ bs := by
  by_cases hle : head ≤ tail
  · have hold : load (writeSpan m size head tail bs) head (tail - head) = load m head (tail - head) :=
      load_writeSpan_of_inSpan hfit fun i hi hi' => by
        rw [InSpan, if_pos hle]
        omega
    by_cases hwrap : size < tail + bs.length
    · rw [Fits, if_pos hle] at hfit
      have hlen : (bs.take (size - tail)).length = size - tail := by
        rw [length_take]
        omega
      have hdrop : (bs.drop (size - tail)).length = tail + bs.length - size := by
        rw [length_drop]
        omega
      have hhigh : load (writeSpan m size head tail bs) tail (size - tail) = bs.take (size - tail) := by
        rw [writeSpan, if_pos ⟨hle, hwrap⟩, load_store_disjoint _ (Or.inr (by omega))]
        have h := load_store_same m tail (bs.take (size - tail))
        rwa [hlen] at h
      have hlow : load (writeSpan m size head tail bs) 0 (tail + bs.length - size) =
          bs.drop (size - tail) := by
        rw [writeSpan, if_pos ⟨hle, hwrap⟩]
        have h := load_store_same (store m tail (bs.take (size - tail))) 0 (bs.drop (size - tail))
        rwa [hdrop] at h
      have hsplit : size - head = tail - head + (size - tail) := by omega
      have hmid : head + (tail - head) = tail := by omega
      rw [writeTail, if_pos ⟨hle, hwrap⟩, span, if_neg (by omega), hsplit, load_add, hold, hmid,
        hhigh, hlow, span, if_pos hle, append_assoc, take_append_drop]
    · have hnew : load (writeSpan m size head tail bs) tail bs.length = bs := by
        rw [writeSpan, if_neg (by omega)]
        exact load_store_same m tail bs
      have hsplit : tail + bs.length - head = tail - head + bs.length := by omega
      have hmid : head + (tail - head) = tail := by omega
      rw [writeTail, if_neg (by omega), span, if_pos (by omega), hsplit, load_add, hold, hmid,
        hnew, span, if_pos hle]
  · have hlow := hfit
    rw [Fits, if_neg hle] at hlow
    have hold (start k : Nat) (h : ∀ i, start ≤ i → i < start + k → head ≤ i ∧ i < size ∨ i < tail) :
        load (writeSpan m size head tail bs) start k = load m start k :=
      load_writeSpan_of_inSpan hfit fun i hi hi' => by
        rw [InSpan, if_neg hle]
        exact h i hi hi'
    have hnew : load (writeSpan m size head tail bs) tail bs.length = bs := by
      rw [writeSpan, if_neg (by omega)]
      exact load_store_same m tail bs
    rw [writeTail, if_neg (by omega), span, if_neg (by omega), span, if_neg hle,
      hold head (size - head) (by omega), load_add, hold 0 tail (by omega), Nat.zero_add, hnew,
      append_assoc]

theorem Fits.mono (hfit : Fits size head tail n) (hk : k ≤ n) : Fits size head tail k := by
  by_cases hle : head ≤ tail
  · rw [Fits, if_pos hle] at hfit ⊢
    omega
  · rw [Fits, if_neg hle] at hfit ⊢
    omega

theorem fits_writeTail (hfit : Fits size head tail (n + k)) :
    Fits size head (writeTail size head tail n) k := by
  simp only [Fits, writeTail] at *
  split at hfit <;> split <;> split <;> omega

theorem inSpan_writeTail (ht : tail ≤ size) (hfit : Fits size head tail n)
    (hi : InSpan size head tail i) : InSpan size head (writeTail size head tail n) i := by
  by_cases hle : head ≤ tail
  · rw [Fits, if_pos hle] at hfit
    rw [InSpan, if_pos hle] at hi
    simp only [InSpan, writeTail]
    split <;> split <;> omega
  · rw [Fits, if_neg hle] at hfit
    rw [InSpan, if_neg hle] at hi
    rw [writeTail, if_neg (by omega), InSpan, if_neg (by omega)]
    omega

theorem writeTail_le (hh : head ≤ size) (hfit : Fits size head tail n) :
    writeTail size head tail n ≤ size := by
  simp only [Fits, writeTail] at *
  split at hfit <;> split <;> omega

theorem writeTail_pos (hpos : tail < head → 0 < tail)
    (h : writeTail size head tail n < head) : 0 < writeTail size head tail n := by
  by_cases hwrap : head ≤ tail ∧ size < tail + n
  · rw [writeTail, if_pos hwrap]
    omega
  · rw [writeTail, if_neg hwrap] at h ⊢
    omega

theorem span_read (hh : head ≤ size) (hn : n ≤ (span m size head tail).length) :
    span m size head tail =
      readSpan m size head tail n ++ span m size (readHead size head tail n) tail := by
  by_cases hle : head ≤ tail
  · rw [span_length, if_pos hle] at hn
    have hsplit : tail - head = n + (tail - (head + n)) := by omega
    rw [readSpan, readHead, if_neg (by omega), if_neg (by omega), span, if_pos hle, span,
      if_pos (by omega), hsplit, load_add]
  · rw [span_length, if_neg hle] at hn
    by_cases hwrap : size < head + n
    · have hsplit : tail = (head + n - size) + (tail - (head + n - size)) := by omega
      rw [readSpan, readHead, if_pos (by omega), if_pos (by omega), span, if_neg hle, span,
        if_pos (by omega), append_assoc]
      congr 1
      conv_lhs => rw [hsplit]
      rw [load_add, Nat.zero_add]
    · have hsplit : size - head = n + (size - (head + n)) := by omega
      rw [readSpan, readHead, if_neg (by omega), if_neg (by omega), span, if_neg hle, span,
        if_neg (by omega), hsplit, load_add, append_assoc]

theorem readHead_le (hh : head ≤ size) (ht : tail ≤ size)
    (hn : n ≤ (span m size head tail).length) : readHead size head tail n ≤ size := by
  rw [span_length] at hn
  simp only [readHead]
  split at hn <;> split <;> omega

theorem readSpan_length (hh : head ≤ size) : (readSpan m size head tail n).length = n := by
  rw [readSpan]
  split
  · rw [length_append, load_length, load_length]
    omega
  · exact load_length m head n

theorem readSpan_eq_of_span (hh : head ≤ size) (h : span m size head tail = xs ++ ys) :
    readSpan m size head tail xs.length = xs ∧
      span m size (readHead size head tail xs.length) tail = ys := by
  have hlen : xs.length ≤ (span m size head tail).length := by
    rw [h, length_append]
    omega
  have hsplit := span_read hh hlen
  rw [h] at hsplit
  obtain ⟨hx, hy⟩ := append_inj hsplit (readSpan_length hh).symm
  exact ⟨hx.symm, hy.symm⟩

def Later (head tail tail' : Nat) : Prop :=
  if head ≤ tail then head ≤ tail' → tail ≤ tail' else tail' < head ∧ tail ≤ tail'

theorem readHead_later (hlater : Later head tail tail') (ht : tail ≤ size)
    (hn : n ≤ (span m size head tail).length) :
    readHead size head tail' n = readHead size head tail n := by
  rw [span_length] at hn
  simp only [Later, readHead] at *
  split at hlater <;> split at hn <;> split <;> split <;> omega

theorem inSpan_of_readHead (hh : head ≤ size) (hn : n ≤ (span m size head tail).length)
    (hi : InSpan size (readHead size head tail n) tail i) : InSpan size head tail i := by
  rw [span_length] at hn
  simp only [InSpan, readHead] at *
  split at hn <;> split at hi <;> split at hi <;> split <;> omega

theorem inSpan_readHead_later (hlater : Later head tail tail') (hh : head ≤ size) (ht : tail ≤ size)
    (hn : n ≤ (span m size head tail).length) (hi : InSpan size (readHead size head tail n) tail i) :
    InSpan size (readHead size head tail n) tail' i := by
  rw [span_length] at hn
  simp only [Later, InSpan] at *
  by_cases hwrap : tail < head ∧ size < head + n
  · rw [readHead, if_pos hwrap] at hi ⊢
    rw [if_neg (by omega)] at hlater hn
    rw [if_pos (by omega)] at hi ⊢
    omega
  · rw [readHead, if_neg hwrap] at hi ⊢
    split at hlater <;> split at hn <;> split at hi <;> split <;> omega

end Utsuite.RingSpan
