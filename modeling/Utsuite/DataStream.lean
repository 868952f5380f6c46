import Utsuite.Transaction

namespace Utsuite.DataStream

open ByteWords Transaction List

variable {s : CDataStream}

def unread (s : CDataStream) : Bytes := s.vch.drop s.nReadPos

def Valid (s : CDataStream) : Prop := s.nReadPos ≤ s.vch.length ∧ s.nReadPos < 2 ^ 32

def moveTo (nReadPosNext : Nat) (s : CDataStream) : Option CDataStream :=
  if nReadPosNext ≥ s.vch.length then
    if nReadPosNext > s.vch.length then none else some ⟨[], 0⟩
  else some ⟨s.vch, nReadPosNext⟩

def ignore (nSize : Int32) (s : CDataStream) : Option CDataStream :=
  if nSize < 0 then none else moveTo ((s.nReadPos + nSize.toInt.toNat) % 2 ^ 32) s

def write (pch : Bytes) (s : CDataStream) : CDataStream := ⟨s.vch ++ pch, s.nReadPos⟩

def insertFill (n : Nat) (x : UInt8) (s : CDataStream) : CDataStream :=
  ⟨s.vch.take s.nReadPos ++ replicate n x ++ s.vch.drop s.nReadPos, s.nReadPos⟩

/-- The model of `insert` with a range. `none` stands for a copy past the end of `vch`. -/
def insertRange (bytes : Bytes) (s : CDataStream) : Option CDataStream :=
  if bytes.length % 2 ^ 32 ≤ s.nReadPos then
    let nReadPos := s.nReadPos - bytes.length % 2 ^ 32
    if nReadPos + bytes.length ≤ s.vch.length then
      some ⟨s.vch.take nReadPos ++ bytes ++ s.vch.drop (nReadPos + bytes.length), nReadPos⟩
    else none
  else some ⟨s.vch.take s.nReadPos ++ bytes ++ s.vch.drop s.nReadPos, s.nReadPos⟩

def eraseFirst (s : CDataStream) : CDataStream :=
  let nReadPos := (s.nReadPos + 1) % 2 ^ 32
  if nReadPos ≥ s.vch.length then ⟨[], 0⟩ else ⟨s.vch, nReadPos⟩

def eraseRange (n : Nat) (s : CDataStream) : CDataStream :=
  let last := s.nReadPos + min n (s.vch.length - s.nReadPos)
  if last = s.vch.length then ⟨[], 0⟩ else ⟨s.vch, last % 2 ^ 32⟩

def compact (s : CDataStream) : CDataStream := ⟨s.vch.drop s.nReadPos, 0⟩

def clear (_ : CDataStream) : CDataStream := ⟨[], 0⟩

def append (b s : CDataStream) : CDataStream := ⟨s.vch ++ unread b, s.nReadPos⟩

def serialize (b s : CDataStream) : CDataStream :=
  if b.vch = [] then s else write b.vch s

def xorLoop (key : Bytes) : Nat → Bytes → Bytes
  | _, [] => []
  | j, b :: bytes =>
    (b ^^^ key.getD j 0) :: xorLoop key (if j + 1 = key.length then 0 else j + 1) bytes

def xor (key : Bytes) (s : CDataStream) : CDataStream :=
  if key.length = 0 then s
  else
    let size := s.vch.length - s.nReadPos
    ⟨xorLoop key 0 (s.vch.take size) ++ s.vch.drop size, s.nReadPos⟩

inductive Op
  | write (pch : Bytes)
  | read (nSize : UInt32)
  | ignore (nSize : Int32)
  | insertFill (n : Nat) (x : UInt8)
  | insertRange (bytes : Bytes)
  | eraseFirst
  | eraseRange (n : Nat)
  | compact
  | clear
  | append (b : {b : CDataStream // Valid b})
  | serialize (b : {b : CDataStream // Valid b})
  | xor (key : Bytes)

inductive Outcome
  | done
  | bytes (pch : Bytes)
  | thrown
  | overrun
  deriving DecidableEq

def step (s : CDataStream) : Op → Outcome × CDataStream
  | .write pch => (.done, write pch s)
  | .read nSize =>
    match s.read nSize.toNat with
    | none => (.thrown, s)
    | some (pch, s) => (.bytes pch, s)
  | .ignore nSize =>
    match ignore nSize s with
    | none => (.thrown, s)
    | some s => (.done, s)
  | .insertFill n x => (.done, insertFill n x s)
  | .insertRange bytes =>
    match insertRange bytes s with
    | none => (.overrun, s)
    | some s => (.done, s)
  | .eraseFirst => (.done, eraseFirst s)
  | .eraseRange n => (.done, eraseRange n s)
  | .compact => (.done, compact s)
  | .clear => (.done, clear s)
  | .append b => (.done, append b s)
  | .serialize b => (.done, serialize b s)
  | .xor key => (.done, xor key s)

def xorQueue (key queue : Bytes) : Bytes :=
  queue.mapIdx fun i b => b ^^^ key.getD (i % key.length) 0

def queueStep (queue : Bytes) : Op → Outcome × Bytes
  | .write pch => (.done, queue ++ pch)
  | .read nSize =>
    if nSize.toNat ≤ queue.length then
      (.bytes (queue.take nSize.toNat), queue.drop nSize.toNat)
    else (.thrown, queue)
  | .ignore nSize =>
    if 0 ≤ nSize ∧ nSize.toInt.toNat ≤ queue.length then
      (.done, queue.drop nSize.toInt.toNat)
    else (.thrown, queue)
  | .insertFill n x => (.done, replicate n x ++ queue)
  | .insertRange bytes => (.done, bytes ++ queue)
  | .eraseFirst => (.done, queue.drop 1)
  | .eraseRange n => (.done, queue.drop n)
  | .compact => (.done, queue)
  | .clear => (.done, [])
  | .append b => (.done, queue ++ unread b)
  | .serialize b => (.done, queue ++ unread b)
  | .xor key => (.done, xorQueue key queue)

/-- The outcomes of all calls and the unread bytes after each of them are those of the list. -/
def Evolves : CDataStream → Bytes → List Op → Prop
  | s, queue, [] => unread s = queue
  | s, queue, op :: ops =>
    unread s = queue ∧ (step s op).1 = (queueStep queue op).1 ∧
      Evolves (step s op).2 (queueStep queue op).2 ops

def Sound (s : CDataStream) : Op → Prop
  | .read nSize => s.nReadPos + nSize.toNat < 2 ^ 32
  | .ignore nSize => 0 ≤ nSize → s.nReadPos + nSize.toInt.toNat < 2 ^ 32
  | .insertRange bytes => bytes.length < 2 ^ 32 ∨ s.nReadPos < bytes.length % 2 ^ 32
  | .eraseFirst => s.nReadPos + 1 < 2 ^ 32
  | .eraseRange n => (unread s).length ≤ n ∨ s.nReadPos + n < 2 ^ 32
  | .serialize b => b.1.nReadPos = 0
  | .xor key => s.nReadPos = 0 ∨ ∀ i < (unread s).length, key.getD (i % key.length) 0 = 0
  | _ => True

def SoundRun : CDataStream → List Op → Prop
  | _, [] => True
  | s, op :: ops => Sound s op ∧ SoundRun (step s op).2 ops

theorem length_unread (s : CDataStream) : (unread s).length = s.vch.length - s.nReadPos :=
  length_drop

theorem moveTo_within (hs : Valid s) (hn : s.nReadPos + n < 2 ^ 32) (hle : n ≤ (unread s).length) :
    ∃ s', moveTo (s.nReadPos + n) s = some s' ∧ unread s' = (unread s).drop n ∧ Valid s' := by
  obtain ⟨vch, nReadPos⟩ := s
  obtain ⟨hpos, -⟩ := hs
  rw [length_unread] at hle
  dsimp only at hn hpos hle
  by_cases hend : nReadPos + n ≥ vch.length
  · refine ⟨⟨[], 0⟩, ?_, ?_, by simp [Valid]⟩
    · unfold moveTo
      rw [if_pos hend, if_neg (by dsimp only; omega)]
    · unfold unread
      rw [drop_drop, drop_eq_nil_of_le hend]
      rfl
  · refine ⟨⟨vch, nReadPos + n⟩, if_neg hend, drop_drop.symm, ?_, hn⟩
    dsimp only
    omega

theorem moveTo_beyond (hs : Valid s) (hlt : (unread s).length < n) :
    moveTo (s.nReadPos + n) s = none := by
  rw [length_unread] at hlt
  have := hs.1
  unfold moveTo
  rw [if_pos (by omega), if_pos (by omega)]

theorem moveTo_wrapped (hs : Valid s) (hn : n < 2 ^ 32) (hwrap : 2 ^ 32 ≤ s.nReadPos + n) :
    ∃ s', moveTo ((s.nReadPos + n) % 2 ^ 32) s = some s' ∧
      (unread s).length < (unread s').length := by
  obtain ⟨hpos, hlt⟩ := hs
  have hnext : (s.nReadPos + n) % 2 ^ 32 < s.nReadPos := by omega
  refine ⟨⟨s.vch, (s.nReadPos + n) % 2 ^ 32⟩, if_neg (by omega), ?_⟩
  rw [length_unread, length_unread]
  dsimp only
  omega

theorem read_eq_moveTo (nSize : Nat) (s : CDataStream) :
    s.read nSize =
      (moveTo ((s.nReadPos + nSize) % 2 ^ 32) s).map ((unread s).take nSize, ·) := by
  unfold CDataStream.read moveTo unread
  dsimp only
  split_ifs <;> rfl

def Agrees (s : CDataStream) (op : Op) : Prop :=
  (step s op).1 = (queueStep (unread s) op).1 ∧
    unread (step s op).2 = (queueStep (unread s) op).2

theorem not_agrees_of_length
    (h : (unread (step s op).2).length ≠ (queueStep (unread s) op).2.length) : ¬Agrees s op :=
  fun hagrees => h (congrArg length hagrees.2)

structure Exact (s : CDataStream) (op : Op) : Prop where
  agrees_iff : Agrees s op ↔ Sound s op
  valid : Sound s op → Valid (step s op).2

theorem Exact.of_agrees (hsound : Sound s op) (hagrees : Agrees s op) (hvalid : Valid (step s op).2) :
    Exact s op :=
  ⟨iff_of_true hagrees hsound, fun _ => hvalid⟩

theorem Exact.of_length (hsound : ¬Sound s op)
    (h : (unread (step s op).2).length ≠ (queueStep (unread s) op).2.length) : Exact s op :=
  ⟨iff_of_false (not_agrees_of_length h) hsound, fun hs => absurd hs hsound⟩

theorem read_exact (hs : Valid s) (nSize : UInt32) :
    Exact s (.read nSize) := by
  have hmove := read_eq_moveTo nSize.toNat s
  by_cases hn : s.nReadPos + nSize.toNat < 2 ^ 32
  · rw [Nat.mod_eq_of_lt hn] at hmove
    by_cases hle : nSize.toNat ≤ (unread s).length
    · obtain ⟨s', hs', hunread, hvalid⟩ := moveTo_within hs hn hle
      rw [hs'] at hmove
      have hstep : step s (.read nSize) = (.bytes ((unread s).take nSize.toNat), s') := by
        rw [step, hmove]
        rfl
      refine .of_agrees hn ?_ (hstep ▸ hvalid)
      unfold Agrees
      rw [hstep, queueStep, if_pos hle]
      exact ⟨rfl, hunread⟩
    · rw [moveTo_beyond hs (not_le.mp hle)] at hmove
      have hstep : step s (.read nSize) = (.thrown, s) := by
        rw [step, hmove]
        rfl
      refine .of_agrees hn ?_ (hstep ▸ hs)
      unfold Agrees
      rw [hstep, queueStep, if_neg hle]
      exact ⟨rfl, rfl⟩
  · obtain ⟨s', hs', hlonger⟩ := moveTo_wrapped hs nSize.toNat_lt (not_lt.mp hn)
    rw [hs'] at hmove
    refine .of_length hn ?_
    rw [step, queueStep, hmove]
    dsimp
    split
    · rw [length_drop]
      omega
    · exact ne_of_gt hlonger

theorem ignore_exact (hs : Valid s) (nSize : Int32) :
    Exact s (.ignore nSize) := by
  by_cases hneg : nSize < 0
  · have hnot : ¬0 ≤ nSize := Int32.not_le.mpr hneg
    have hstep : step s (.ignore nSize) = (.thrown, s) := by
      rw [step, ignore, if_pos hneg]
    refine .of_agrees (fun h => absurd h hnot) ?_ (hstep ▸ hs)
    unfold Agrees
    rw [hstep, queueStep, if_neg (fun h => hnot h.1)]
    exact ⟨rfl, rfl⟩
  have hnonneg : 0 ≤ nSize := Int32.not_lt.mp hneg
  have hmove : ignore nSize s = moveTo ((s.nReadPos + nSize.toInt.toNat) % 2 ^ 32) s :=
    if_neg hneg
  by_cases hn : s.nReadPos + nSize.toInt.toNat < 2 ^ 32
  · rw [Nat.mod_eq_of_lt hn] at hmove
    by_cases hle : nSize.toInt.toNat ≤ (unread s).length
    · obtain ⟨s', hs', hunread, hvalid⟩ := moveTo_within hs hn hle
      have hstep : step s (.ignore nSize) = (.done, s') := by
        rw [step, hmove, hs']
      refine .of_agrees (fun _ => hn) ?_ (hstep ▸ hvalid)
      unfold Agrees
      rw [hstep, queueStep, if_pos ⟨hnonneg, hle⟩]
      exact ⟨rfl, hunread⟩
    · have hstep : step s (.ignore nSize) = (.thrown, s) := by
        rw [step, hmove, moveTo_beyond hs (not_le.mp hle)]
      refine .of_agrees (fun _ => hn) ?_ (hstep ▸ hs)
      unfold Agrees
      rw [hstep, queueStep, if_neg (fun h => hle h.2)]
      exact ⟨rfl, rfl⟩
  · have hlt : nSize.toInt.toNat < 2 ^ 32 := by
      have := nSize.toInt_lt
      omega
    obtain ⟨s', hs', hlonger⟩ := moveTo_wrapped hs hlt (not_lt.mp hn)
    refine .of_length (fun h => hn (h hnonneg)) ?_
    rw [step, queueStep, hmove, hs']
    dsimp only
    split
    · rw [length_drop]
      omega
    · exact ne_of_gt hlonger

theorem unread_write (hs : Valid s) (pch : Bytes) :
    unread (write pch s) = unread s ++ pch :=
  drop_append_of_le_length hs.1

theorem write_valid (hs : Valid s) (pch : Bytes) : Valid (write pch s) := by
  refine ⟨?_, hs.2⟩
  rw [write, length_append]
  exact hs.1.trans (Nat.le_add_right _ _)

theorem unread_between (hs : Valid s) (bytes : Bytes) :
    unread ⟨s.vch.take s.nReadPos ++ bytes ++ s.vch.drop s.nReadPos, s.nReadPos⟩ =
        bytes ++ unread s ∧
      Valid ⟨s.vch.take s.nReadPos ++ bytes ++ s.vch.drop s.nReadPos, s.nReadPos⟩ := by
  have hlen : (s.vch.take s.nReadPos).length = s.nReadPos := length_take_of_le hs.1
  constructor
  · unfold unread
    rw [append_assoc]
    exact drop_left' hlen
  · refine ⟨?_, hs.2⟩
    dsimp only
    rw [length_append, length_append, hlen]
    omega

theorem insertRange_exact (hs : Valid s) (bytes : Bytes) :
    Exact s (.insertRange bytes) := by
  obtain ⟨hpos, hlt⟩ := hs
  by_cases hroom : bytes.length % 2 ^ 32 ≤ s.nReadPos
  · by_cases hsize : bytes.length < 2 ^ 32
    · rw [Nat.mod_eq_of_lt hsize] at hroom
      have hback : s.nReadPos - bytes.length + bytes.length = s.nReadPos := by omega
      have hstep : step s (.insertRange bytes) = (.done, ⟨s.vch.take (s.nReadPos - bytes.length)
          ++ bytes ++ s.vch.drop s.nReadPos, s.nReadPos - bytes.length⟩) := by
        rw [step, insertRange, Nat.mod_eq_of_lt hsize, if_pos hroom]
        dsimp only
        rw [hback, if_pos hpos]
      have hlen : (s.vch.take (s.nReadPos - bytes.length)).length = s.nReadPos - bytes.length :=
        length_take_of_le (by omega)
      refine .of_agrees (.inl hsize) ⟨by rw [hstep]; rfl, ?_⟩ ?_
      · rw [hstep, queueStep]
        unfold unread
        rw [append_assoc]
        exact drop_left' hlen
      · rw [hstep]
        refine ⟨?_, by dsimp only; omega⟩
        dsimp only
        rw [length_append, length_append, hlen, length_drop]
        omega
    · have hsound : ¬Sound s (.insertRange bytes) := by
        rintro (h | h) <;> omega
      by_cases hfits : s.nReadPos - bytes.length % 2 ^ 32 + bytes.length ≤ s.vch.length
      · -- The copy is over bytes that were unread.
        refine .of_length hsound ?_
        rw [step, insertRange, if_pos hroom]
        dsimp only
        rw [if_pos hfits, queueStep, length_unread]
        dsimp only
        rw [length_append, length_append, length_append, length_take,
          length_drop, length_unread]
        omega
      · refine ⟨iff_of_false ?_ hsound, fun h => absurd h hsound⟩
        rintro ⟨houtcome, -⟩
        rw [step, insertRange, if_pos hroom] at houtcome
        dsimp only at houtcome
        rw [if_neg hfits] at houtcome
        cases houtcome
  · have hstep : step s (.insertRange bytes) =
        (.done, ⟨s.vch.take s.nReadPos ++ bytes ++ s.vch.drop s.nReadPos, s.nReadPos⟩) := by
      rw [step, insertRange, if_neg hroom]
    obtain ⟨hunread, hvalid⟩ := unread_between ⟨hpos, hlt⟩ bytes
    refine .of_agrees (.inr (not_le.mp hroom)) ⟨by rw [hstep]; rfl, ?_⟩ (hstep ▸ hvalid)
    rw [hstep]
    exact hunread

theorem eraseFirst_exact (hs : Valid s) : Exact s .eraseFirst := by
  obtain ⟨hpos, hlt⟩ := hs
  by_cases hn : s.nReadPos + 1 < 2 ^ 32
  · have hstep : (step s .eraseFirst).2 =
        if s.nReadPos + 1 ≥ s.vch.length then ⟨[], 0⟩ else ⟨s.vch, s.nReadPos + 1⟩ := by
      rw [step, eraseFirst, Nat.mod_eq_of_lt hn]
    by_cases hend : s.nReadPos + 1 ≥ s.vch.length
    · rw [if_pos hend] at hstep
      refine .of_agrees hn ⟨rfl, ?_⟩ (hstep ▸ by simp [Valid])
      rw [hstep]
      unfold queueStep unread
      rw [drop_drop, drop_eq_nil_of_le hend]
      rfl
    · rw [if_neg hend] at hstep
      refine .of_agrees hn ⟨rfl, ?_⟩ (hstep ▸ ⟨by dsimp only; omega, hn⟩)
      rw [hstep]
      exact drop_drop.symm
  · refine .of_length hn ?_
    have hzero : (s.nReadPos + 1) % 2 ^ 32 = 0 := by omega
    rw [step, queueStep, eraseFirst, hzero]
    dsimp only
    rw [if_neg (by omega), length_unread, length_drop, length_unread]
    dsimp only
    omega

theorem eraseRange_exact (hs : Valid s) (n : Nat) :
    Exact s (.eraseRange n) := by
  obtain ⟨hpos, hlt⟩ := hs
  have hsize := length_unread s
  by_cases hall : (unread s).length ≤ n
  · have hstep : (step s (.eraseRange n)).2 = ⟨[], 0⟩ := by
      rw [step, eraseRange]
      exact if_pos (by omega)
    refine .of_agrees (.inl hall) ⟨rfl, ?_⟩ (hstep ▸ by simp [Valid])
    rw [hstep, queueStep, drop_eq_nil_of_le hall]
    rfl
  have hmin : min n (s.vch.length - s.nReadPos) = n := by omega
  have hstep : (step s (.eraseRange n)).2 = ⟨s.vch, (s.nReadPos + n) % 2 ^ 32⟩ := by
    rw [step, eraseRange]
    dsimp only
    rw [hmin, if_neg (by omega)]
  by_cases hn : s.nReadPos + n < 2 ^ 32
  · rw [Nat.mod_eq_of_lt hn] at hstep
    refine .of_agrees (.inr hn) ⟨rfl, ?_⟩ (hstep ▸ ⟨by dsimp only; omega, hn⟩)
    rw [hstep]
    exact drop_drop.symm
  · refine .of_length (by rintro (h | h) <;> contradiction) ?_
    rw [hstep, queueStep, length_unread, length_drop, length_unread]
    dsimp only
    omega

theorem serialize_exact (hs : Valid s) (b : {b : CDataStream // Valid b}) :
    Exact s (.serialize b) := by
  have hstep : (step s (.serialize b)).2 = write b.1.vch s := by
    rw [step, serialize]
    split
    · rename_i hnil
      rw [hnil, write, append_nil]
    · rfl
  by_cases hzero : b.1.nReadPos = 0
  · refine .of_agrees hzero ⟨rfl, ?_⟩ (hstep ▸ write_valid hs b.1.vch)
    rw [hstep, unread_write hs, queueStep, unread, unread, hzero]
    rfl
  · refine .of_length hzero ?_
    have hb := b.2.1
    rw [hstep, unread_write hs, queueStep, length_append, length_append,
      length_unread b.1]
    omega

theorem xorLoop_eq (key : Bytes) (j : Nat) (hj : j < key.length) (bytes : Bytes) :
    xorLoop key j bytes =
      bytes.mapIdx fun i b => b ^^^ key.getD ((i + j) % key.length) 0 := by
  induction bytes generalizing j with
  | nil => rfl
  | cons b bytes ih =>
    have hnext : (if j + 1 = key.length then 0 else j + 1) = (j + 1) % key.length := by
      split
      · rename_i hend
        rw [hend, Nat.mod_self]
      · exact (Nat.mod_eq_of_lt (by omega)).symm
    rw [xorLoop, hnext, ih _ (Nat.mod_lt _ (by omega)), mapIdx_cons, zero_add,
      Nat.mod_eq_of_lt hj]
    congr 2
    funext i b
    rw [Nat.add_mod_mod, add_right_comm, add_assoc]

def keyAt (key : Bytes) (i : Nat) : UInt8 := key.getD (i % key.length) 0

theorem xorQueue_getElem? (key queue : Bytes) (i : Nat) :
    (xorQueue key queue)[i]? = queue[i]?.map (· ^^^ keyAt key i) := by
  unfold xorQueue keyAt
  rw [getElem?_mapIdx]

theorem xorQueue_nil (queue : Bytes) : xorQueue [] queue = queue := by
  apply ext_getElem?
  intro i
  rw [xorQueue_getElem?]
  simp [keyAt]

theorem xorQueue_length (key queue : Bytes) : (xorQueue key queue).length = queue.length :=
  length_mapIdx

theorem xor_eq (key : Bytes) (s : CDataStream) :
    xor key s = ⟨xorQueue key (s.vch.take (unread s).length) ++ s.vch.drop (unread s).length,
      s.nReadPos⟩ := by
  rw [xor, length_unread]
  split
  · rename_i hkey
    obtain rfl := length_eq_zero_iff.mp hkey
    rw [xorQueue_nil, take_append_drop]
  · rename_i hkey
    dsimp only
    rw [xorLoop_eq key 0 (pos_of_ne_zero hkey)]
    rfl

def xored (key : Bytes) (s : CDataStream) (i : Nat) : UInt8 :=
  if i < (unread s).length then keyAt key i else 0

theorem xor_getElem? (key : Bytes) (s : CDataStream) (i : Nat) :
    (xor key s).vch[i]? = s.vch[i]?.map (· ^^^ xored key s i) := by
  have htake : (xorQueue key (s.vch.take (unread s).length)).length = (unread s).length := by
    rw [xorQueue_length, length_take_of_le (by rw [length_unread]; omega)]
  rw [xor_eq, xored]
  split
  · rename_i hlt
    rw [getElem?_append_left (by omega), xorQueue_getElem?, getElem?_take_of_lt hlt]
  · rename_i hge
    rw [getElem?_append_right (by omega), htake, getElem?_drop,
      Nat.add_sub_cancel' (not_lt.mp hge)]
    simp

theorem xor_length (key : Bytes) (s : CDataStream) : (xor key s).vch.length = s.vch.length := by
  rw [xor_eq]
  rw [length_append, xorQueue_length, ← length_append, take_append_drop]

theorem xor_nReadPos (key : Bytes) (s : CDataStream) : (xor key s).nReadPos = s.nReadPos := by
  rw [xor_eq]

theorem xored_xor (key : Bytes) (s : CDataStream) : xored key (xor key s) = xored key s := by
  funext i
  unfold xored
  rw [length_unread, length_unread, xor_length, xor_nReadPos]

theorem xor_xor (key : Bytes) (s : CDataStream) : xor key (xor key s) = s := by
  have hvch : (xor key (xor key s)).vch = s.vch := by
    apply ext_getElem?
    intro i
    rw [xor_getElem?, xor_getElem?, xored_xor, Option.map_map]
    have hself : ((· ^^^ xored key s i) ∘ (· ^^^ xored key s i)) = (id : UInt8 → UInt8) := by
      funext b
      rw [Function.comp_apply, UInt8.xor_assoc, UInt8.xor_self, UInt8.xor_zero, id]
    rw [hself, Option.map_id, id]
  have hpos : (xor key (xor key s)).nReadPos = s.nReadPos := by
    rw [xor_nReadPos, xor_nReadPos]
  generalize xor key (xor key s) = s' at hvch hpos
  obtain ⟨vch, nReadPos⟩ := s'
  obtain rfl : vch = s.vch := hvch
  obtain rfl : nReadPos = s.nReadPos := hpos
  rfl

theorem unread_xor_iff (key : Bytes) (s : CDataStream) :
    unread (xor key s) = xorQueue key (unread s) ↔
      ∀ i < (unread s).length, xored key s (s.nReadPos + i) = keyAt key i := by
  have hbyte : ∀ i, (unread (xor key s))[i]? =
      (unread s)[i]?.map (· ^^^ xored key s (s.nReadPos + i)) := by
    intro i
    unfold unread
    rw [getElem?_drop, getElem?_drop, xor_nReadPos]
    exact xor_getElem? key s _
  constructor
  · intro h i hi
    have hi' := hbyte i
    rw [h, xorQueue_getElem?, getElem?_eq_getElem hi] at hi'
    exact (UInt8.xor_right_inj _).mp (Option.some.inj hi').symm
  · intro h
    apply ext_getElem?
    intro i
    rw [hbyte, xorQueue_getElem?]
    by_cases hi : i < (unread s).length
    · rw [h i hi]
    · rw [getElem?_eq_none (not_lt.mp hi)]
      rfl

theorem xored_eq_keyAt_iff (key : Bytes) (s : CDataStream) :
    (∀ i < (unread s).length, xored key s (s.nReadPos + i) = keyAt key i) ↔
      s.nReadPos = 0 ∨ ∀ i < (unread s).length, keyAt key i = 0 := by
  constructor
  · intro h
    by_cases hpos : s.nReadPos = 0
    · exact .inl hpos
    refine .inr fun i hi => ?_
    -- From the last byte backwards, by the read position at a time.
    induction hk : (unread s).length - i using Nat.strong_induction_on generalizing i with
    | _ k ih =>
      rw [← h i hi, xored]
      split
      · rename_i hlt
        exact ih _ (by omega) _ hlt rfl
      · rfl
  · rintro (hpos | hzero) i hi
    · rw [hpos, zero_add, xored, if_pos hi]
    · rw [hzero i hi, xored]
      split
      · rename_i hlt
        exact hzero _ hlt
      · rfl

theorem xor_exact (hs : Valid s) (key : Bytes) : Exact s (.xor key) := by
  have hagrees : Agrees s (.xor key) ↔ unread (xor key s) = xorQueue key (unread s) :=
    and_iff_right rfl
  refine ⟨hagrees.trans ((unread_xor_iff key s).trans (xored_eq_keyAt_iff key s)), fun _ => ?_⟩
  refine ⟨?_, ?_⟩
  · rw [step, xor_length, xor_nReadPos]
    exact hs.1
  · rw [step, xor_nReadPos]
    exact hs.2

theorem step_exact (hs : Valid s) (op : Op) : Exact s op := by
  cases op with
  | write pch => exact .of_agrees trivial ⟨rfl, unread_write hs pch⟩ (write_valid hs pch)
  | read nSize => exact read_exact hs nSize
  | ignore nSize => exact ignore_exact hs nSize
  | insertFill n x =>
    obtain ⟨hunread, hvalid⟩ := unread_between hs (replicate n x)
    exact .of_agrees trivial ⟨rfl, hunread⟩ hvalid
  | insertRange bytes => exact insertRange_exact hs bytes
  | eraseFirst => exact eraseFirst_exact hs
  | eraseRange n => exact eraseRange_exact hs n
  | compact => exact .of_agrees trivial ⟨rfl, rfl⟩ ⟨Nat.zero_le _, Nat.two_pow_pos 32⟩
  | clear => exact .of_agrees trivial ⟨rfl, rfl⟩ ⟨Nat.zero_le _, Nat.two_pow_pos 32⟩
  | append b => exact .of_agrees trivial ⟨rfl, unread_write hs (unread b)⟩ (write_valid hs _)
  | serialize b => exact serialize_exact hs b
  | xor key => exact xor_exact hs key

theorem evolves_iff (hs : Valid s) (ops : List Op) :
    Evolves s (unread s) ops ↔ SoundRun s ops := by
  induction ops generalizing s with
  | nil => exact iff_of_true rfl trivial
  | cons op ops ih =>
    have hexact := step_exact hs op
    constructor
    · rintro ⟨-, houtcome, hrest⟩
      have hunread : unread (step s op).2 = (queueStep (unread s) op).2 := by
        cases ops with
        | nil => exact hrest
        | cons => exact hrest.1
      have hsound : Sound s op := hexact.agrees_iff.mp ⟨houtcome, hunread⟩
      refine ⟨hsound, (ih (hexact.valid hsound)).mp ?_⟩
      rwa [hunread]
    · rintro ⟨hsound, hrest⟩
      obtain ⟨houtcome, hunread⟩ := hexact.agrees_iff.mpr hsound
      refine ⟨rfl, houtcome, ?_⟩
      rw [← hunread]
      exact (ih (hexact.valid hsound)).mpr hrest

/-- A stream behaves as the queue of its unread bytes exactly as long as each call is sound, and
`Xor` with the same key undoes itself. -/
theorem dataStream_queue_iff (vch : Bytes) (ops : List Op) :
    (Evolves ⟨vch, 0⟩ vch ops ↔ SoundRun ⟨vch, 0⟩ ops) ∧
      ∀ s key, xor key (xor key s) = s :=
  ⟨evolves_iff (s := ⟨vch, 0⟩) ⟨Nat.zero_le _, Nat.two_pow_pos 32⟩ ops, fun s key => xor_xor key s⟩

def partlyRead : {b : CDataStream // Valid b} := ⟨⟨[1, 2, 3], 1⟩, by decide, by decide⟩

/-- After a read, `Xor` starts at the wrong byte of its key and misses one, and `<<` of a stream
appends a byte that was already read. -/
theorem read_bytes_not_skipped :
    (step ⟨[1, 2, 3], 0⟩ (.read 1)).2 = partlyRead.1 ∧
      unread (xor [0xFF] partlyRead) = [0xFD, 3] ∧
      (queueStep (unread partlyRead) (.xor [0xFF])).2 = [0xFD, 0xFC] ∧
      unread (serialize partlyRead ⟨[], 0⟩) = [1, 2, 3] ∧
      unread (append partlyRead ⟨[], 0⟩) = [2, 3] ∧
      ¬Evolves ⟨[1, 2, 3], 0⟩ [1, 2, 3] [.read 1, .xor [0xFF]] ∧
      ¬Evolves ⟨[], 0⟩ [] [.serialize partlyRead] := by
  refine ⟨rfl, by decide, by decide, by decide, by decide, ?_, ?_⟩
  · rintro ⟨-, -, -, -, hunread⟩
    rw [Evolves] at hunread
    exact absurd hunread (by decide)
  · rintro ⟨-, -, hunread⟩
    rw [Evolves] at hunread
    exact absurd hunread (by decide)

end Utsuite.DataStream
