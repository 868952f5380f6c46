import Utsuite.RingWindow
import Utsuite.Transitions

namespace Utsuite.BufferedFile

open ByteWords ByteMem RingWindow Transitions List

def add64 (a b : Nat) : Nat := (a + b) % 2 ^ 64

def sub64 (a b : Nat) : Nat := (2 ^ 64 + a - b) % 2 ^ 64

/-- How many bytes a call of `fread` delivers, and whether `feof` holds after it, may differ from
call to call. -/
structure Source where
  bytes : Bytes
  size_lt : bytes.length < 2 ^ 63
  fread : Nat → Nat → Nat → Nat
  fread_le : ∀ call pos n, fread call pos n ≤ n
  fread_inside : ∀ call pos n, pos ≤ bytes.length → pos + fread call pos n ≤ bytes.length
  feof : Nat → Bool

structure CBufferedFile where
  calls : Nat
  nSrcPos : Nat
  nReadPos : Nat
  nReadLimit : Nat
  nRewind : Nat
  vchBuf : Mem
  size : Nat

def ofFile (nBufSize nRewindIn : Nat) : CBufferedFile where
  calls := 0
  nSrcPos := 0
  nReadPos := 0
  nReadLimit := 2 ^ 64 - 1
  nRewind := nRewindIn
  vchBuf := fun _ => 0
  size := nBufSize

def readNow (s : CBufferedFile) : Nat :=
  let pos := s.nSrcPos % s.size % 2 ^ 32
  let readNow := (s.size - pos) % 2 ^ 32
  let nAvail := (((s.size : Int) - (s.nSrcPos - s.nReadPos) - s.nRewind) % 2 ^ 32).toNat
  if nAvail < readNow then nAvail else readNow

/-- The model of `Fill`. Its exceptions are given as `error`, with their texts. -/
def fill (src : Source) (s : CBufferedFile) : CBufferedFile × Except String Bool :=
  let pos := s.nSrcPos % s.size % 2 ^ 32
  if readNow s = 0 then (s, .ok false)
  else
    let read := src.fread s.calls s.nSrcPos (readNow s)
    let s' := { s with
      calls := s.calls + 1
      vchBuf := store s.vchBuf pos ((src.bytes.drop s.nSrcPos).take read) }
    if read = 0 then
      (s', .error (if src.feof s.calls then "CBufferedFile::Fill: end of file"
        else "CBufferedFile::Fill: fread failed"))
    else ({ s' with nSrcPos := add64 s.nSrcPos read }, .ok true)

def fillIfEmpty (src : Source) (s : CBufferedFile) : CBufferedFile × Except String Bool :=
  if s.nReadPos = s.nSrcPos then fill src s else (s, .ok true)

structure Outcome where
  state : CBufferedFile
  bytes : Bytes
  error : Option String

def Outcome.after (bytes : Bytes) (o : Outcome) : Outcome := { o with bytes := bytes ++ o.bytes }

def nNow (nSize : Nat) (s : CBufferedFile) : Nat :=
  let pos := s.nReadPos % s.size % 2 ^ 32
  let n := if add64 nSize pos > s.size then s.size - pos else nSize
  if add64 n s.nReadPos > s.nSrcPos then sub64 s.nSrcPos s.nReadPos else n

/-- Every turn of the loop that does not fail copies a byte at least, so `nSize` turns are enough.
-/
def readLoop (src : Source) : Nat → Nat → CBufferedFile → Option Outcome
  | _, 0, s => some ⟨s, [], none⟩
  | 0, _ + 1, _ => none
  | turns + 1, nSize + 1, s =>
    match fillIfEmpty src s with
    | (s, .error e) => some ⟨s, [], some e⟩
    | (s, .ok _) =>
      let n := nNow (nSize + 1) s
      (readLoop src turns (sub64 (nSize + 1) n) { s with nReadPos := add64 s.nReadPos n }).map
        (Outcome.after (load s.vchBuf (s.nReadPos % s.size % 2 ^ 32) n))

def read (src : Source) (nSize : Nat) (s : CBufferedFile) : Option Outcome :=
  if add64 nSize s.nReadPos > s.nReadLimit then
    some ⟨s, [], some "Read attempted past buffer limit"⟩
  else if add64 nSize s.nRewind > s.size then
    some ⟨s, [], some "Read larger than buffer size"⟩
  else readLoop src nSize nSize s

def setPos (nPos : Nat) (s : CBufferedFile) : Bool × CBufferedFile :=
  if add64 nPos s.nRewind < s.nSrcPos then
    (false, { s with nReadPos := sub64 s.nSrcPos s.nRewind })
  else if nPos > s.nSrcPos then (false, { s with nReadPos := s.nSrcPos })
  else (true, { s with nReadPos := nPos })

def setLimit (nPos : Nat) (s : CBufferedFile) : Bool × CBufferedFile :=
  if nPos < s.nReadPos then (false, s) else (true, { s with nReadLimit := nPos })

def findByte (src : Source) (ch : UInt8) : Nat → CBufferedFile → Option Outcome
  | 0, _ => none
  | turns + 1, s =>
    match fillIfEmpty src s with
    | (s, .error e) => some ⟨s, [], some e⟩
    | (s, .ok _) =>
      let c := s.vchBuf (s.nReadPos % s.size)
      if c = ch then some ⟨s, [c], none⟩
      else (findByte src ch turns { s with nReadPos := add64 s.nReadPos 1 }).map
        (Outcome.after [c])

inductive Call
  | read (nSize : Nat)
  | findByte (ch : UInt8)
  | setPos (nPos : Nat)
  | setLimit (nPos : Nat)

def apply (src : Source) (turns : Nat) (s : CBufferedFile) : Call → Option CBufferedFile
  | .read nSize => (read src nSize s).map Outcome.state
  | .findByte ch => (findByte src ch turns s).map Outcome.state
  | .setPos nPos => some (setPos nPos s).2
  | .setLimit nPos => some (setLimit nPos s).2

def system (src : Source) (turns nBufSize nRewind : Nat) : System CBufferedFile Call where
  start := {ofFile nBufSize nRewind}
  next s call s' := apply src turns s call = some s'

/-- The invariant of the buffer. It holds the last bytes of the file before the position up to which
it was filled. -/
structure Good (src : Source) (nBufSize nRewind : Nat) (s : CBufferedFile) : Prop where
  size_lt : nBufSize < 2 ^ 32
  rewind_lt : nRewind < nBufSize
  size_eq : s.size = nBufSize
  rewind_eq : s.nRewind = nRewind
  read_le : s.nReadPos ≤ s.nSrcPos
  window : s.nSrcPos ≤ s.nReadPos + nBufSize
  src_le : s.nSrcPos ≤ src.bytes.length
  holds : Holds s.vchBuf nBufSize src.bytes s.nSrcPos

theorem add64_eq (h : a + b < 2 ^ 64) : add64 a b = a + b := Nat.mod_eq_of_lt h

theorem sub64_eq (h : b ≤ a) (ha : a < 2 ^ 64) : sub64 a b = a - b := by
  rw [sub64]
  omega

section

variable {src : Source} {nBufSize nRewind : Nat} {s : CBufferedFile}

theorem readNow_spec (h : Good src nBufSize nRewind s) (hempty : s.nReadPos = s.nSrcPos) :
    0 < readNow s ∧ s.nSrcPos % nBufSize + readNow s ≤ nBufSize := by
  have hsize := h.size_lt
  have hrewind := h.rewind_lt
  have hpos : s.nSrcPos % nBufSize < nBufSize := Nat.mod_lt _ (by omega)
  have havail : (((nBufSize : Int) - (s.nSrcPos - s.nSrcPos) - nRewind) % 2 ^ 32).toNat =
      nBufSize - nRewind := by omega
  rw [readNow, h.size_eq, h.rewind_eq, hempty, havail]
  split_ifs <;> omega

theorem fill_spec (h : Good src nBufSize nRewind s) (hempty : s.nReadPos = s.nSrcPos) :
    Good src nBufSize nRewind (fill src s).1 ∧ (fill src s).1.nReadPos = s.nReadPos ∧
      ∀ b, (fill src s).2 = .ok b → s.nReadPos < (fill src s).1.nSrcPos := by
  obtain ⟨hnow, hfit⟩ := readNow_spec h hempty
  have hsize := h.size_lt
  have hpos : s.nSrcPos % s.size % 2 ^ 32 = s.nSrcPos % nBufSize := by
    have := Nat.mod_lt s.nSrcPos (by omega : nBufSize > 0)
    rw [h.size_eq, Nat.mod_eq_of_lt (by omega)]
  have hle := src.fread_le s.calls s.nSrcPos (readNow s)
  have hinside := src.fread_inside s.calls s.nSrcPos (readNow s) h.src_le
  have hfile := src.size_lt
  have hlen : ((src.bytes.drop s.nSrcPos).take (src.fread s.calls s.nSrcPos (readNow s))).length =
      src.fread s.calls s.nSrcPos (readNow s) := by
    rw [length_take, length_drop]
    omega
  have hbs := congrArg (fun k => (src.bytes.drop s.nSrcPos).take k) hlen.symm
  have hholds := h.holds.store hbs (by omega)
  rw [hlen] at hholds
  rw [fill, if_neg (by omega), hpos]
  dsimp only
  by_cases hzero : src.fread s.calls s.nSrcPos (readNow s) = 0
  · rw [if_pos hzero]
    refine ⟨{ h with holds := ?_ }, rfl, ?_⟩
    · rw [hzero, take_zero, store_nil]
      exact h.holds
    · intro b hb
      cases hb
  · rw [if_neg hzero, add64_eq (by omega)]
    refine ⟨⟨hsize, h.rewind_lt, h.size_eq, h.rewind_eq, ?_, ?_, hinside, hholds⟩, rfl, ?_⟩
    · dsimp only
      omega
    · dsimp only
      omega
    · intro _ _
      dsimp only
      omega

theorem fillIfEmpty_spec (h : Good src nBufSize nRewind s) :
    Good src nBufSize nRewind (fillIfEmpty src s).1 ∧
      (fillIfEmpty src s).1.nReadPos = s.nReadPos ∧
      ∀ b, (fillIfEmpty src s).2 = .ok b → s.nReadPos < (fillIfEmpty src s).1.nSrcPos := by
  rw [fillIfEmpty]
  by_cases hempty : s.nReadPos = s.nSrcPos
  · rw [if_pos hempty]
    exact fill_spec h hempty
  · rw [if_neg hempty]
    have := h.read_le
    exact ⟨h, rfl, fun _ _ => by dsimp only; omega⟩

theorem Good.moveTo (h : Good src nBufSize nRewind s) (hle : pos ≤ s.nSrcPos)
    (hwin : s.nSrcPos ≤ pos + nBufSize) :
    Good src nBufSize nRewind { s with nReadPos := pos } :=
  { h with
    read_le := hle
    window := hwin }

theorem Good.advance (h : Good src nBufSize nRewind s) (hn : s.nReadPos + n ≤ s.nSrcPos) :
    Good src nBufSize nRewind { s with nReadPos := s.nReadPos + n } :=
  h.moveTo hn (h.window.trans (by omega))

def FromFile (src : Source) (pos : Nat) (bytes : Bytes) : Prop :=
  bytes = (src.bytes.drop pos).take bytes.length

theorem FromFile.nil (pos : Nat) : FromFile src pos [] := rfl

theorem FromFile.append (h : FromFile src pos bytes) (h' : FromFile src (pos + bytes.length) bytes') :
    FromFile src pos (bytes ++ bytes') := by
  unfold FromFile at *
  rw [length_append, take_add, ← h, drop_drop, ← h']

structure Delivers (src : Source) (nBufSize nRewind : Nat) (s : CBufferedFile) (o : Outcome) :
    Prop where
  good : Good src nBufSize nRewind o.state
  bytes : FromFile src s.nReadPos o.bytes

theorem nNow_spec (h : Good src nBufSize nRewind s)
    (hn : nSize < 2 ^ 63) (hpos : 0 < nSize) (hlt : s.nReadPos < s.nSrcPos) :
    0 < nNow nSize s ∧ nNow nSize s ≤ nSize ∧ s.nReadPos + nNow nSize s ≤ s.nSrcPos ∧
      s.nReadPos % nBufSize + nNow nSize s ≤ nBufSize := by
  have hsize := h.size_lt
  have hwin := h.window
  have hmod : s.nReadPos % nBufSize < nBufSize := Nat.mod_lt _ (by omega)
  have hle := h.src_le
  have hfile := src.size_lt
  have hpos32 : s.nReadPos % nBufSize % 2 ^ 32 = s.nReadPos % nBufSize :=
    Nat.mod_eq_of_lt (by omega)
  have hsum : add64 nSize (s.nReadPos % nBufSize) = nSize + s.nReadPos % nBufSize :=
    add64_eq (by omega)
  rw [nNow, h.size_eq, hpos32, hsum, sub64_eq h.read_le (by omega)]
  by_cases hend : nSize + s.nReadPos % nBufSize > nBufSize
  · rw [if_pos hend, add64_eq (by omega)]
    split_ifs <;> omega
  · rw [if_neg hend, add64_eq (by omega)]
    split_ifs <;> omega

theorem readLoop_spec (hturns : nSize ≤ turns) (hn : nSize < 2 ^ 63) (h : Good src nBufSize nRewind s) :
    ∃ o, readLoop src turns nSize s = some o ∧ Delivers src nBufSize nRewind s o ∧
      o.state.nReadPos = s.nReadPos + o.bytes.length ∧
      (o.error = none → o.bytes.length = nSize) := by
  induction turns generalizing nSize s with
  | zero =>
    obtain rfl := Nat.le_zero.mp hturns
    exact ⟨⟨s, [], none⟩, by rw [readLoop], ⟨h, .nil _⟩, rfl, fun _ => rfl⟩
  | succ turns ih =>
    cases nSize with
    | zero => exact ⟨⟨s, [], none⟩, by rw [readLoop], ⟨h, .nil _⟩, rfl, fun _ => rfl⟩
    | succ nSize =>
      obtain ⟨hgood, hread, hsome⟩ := fillIfEmpty_spec h
      rw [readLoop]
      rcases hfill : fillIfEmpty src s with ⟨s₁, e | b⟩
      · rw [hfill] at hgood hread
        exact ⟨⟨s₁, [], some e⟩, rfl, ⟨hgood, .nil _⟩, hread, fun h => by cases h⟩
      · rw [hfill] at hgood hread hsome
        have hlt := hsome b rfl
        dsimp only at hgood hread hlt ⊢
        rw [← hread] at hlt
        obtain ⟨hpos, hle, hmax, hfit⟩ := nNow_spec hgood hn (Nat.succ_pos nSize) hlt
        have hsize := h.size_lt
        have hwin := hgood.window
        have hsrc := hgood.src_le
        have hfile := src.size_lt
        have hload : load s₁.vchBuf (s₁.nReadPos % s₁.size % 2 ^ 32) (nNow (nSize + 1) s₁) =
            (src.bytes.drop s.nReadPos).take (nNow (nSize + 1) s₁) := by
          have hmod := Nat.mod_lt s₁.nReadPos (by omega : nBufSize > 0)
          rw [hgood.size_eq, Nat.mod_eq_of_lt (by omega), hgood.holds.load hmax hwin hfit, hread]
        have hlen := load_length s₁.vchBuf (s₁.nReadPos % s₁.size % 2 ^ 32) (nNow (nSize + 1) s₁)
        rw [sub64_eq hle (by omega), add64_eq (by omega)]
        obtain ⟨o, ho, hdel, hmoved, hall⟩ := ih
          (by omega : nSize + 1 - nNow (nSize + 1) s₁ ≤ turns) (by omega) (hgood.advance hmax)
        rw [ho]
        refine ⟨_, rfl, ⟨hdel.good, ?_⟩, ?_, ?_⟩
        · refine FromFile.append (by rw [FromFile, hlen]; exact hload) ?_
          rw [hlen, ← hread]
          exact hdel.bytes
        · rw [Outcome.after, length_append, hlen]
          dsimp only at hmoved ⊢
          omega
        · intro he
          rw [Outcome.after, length_append, hlen, hall he]
          omega

theorem read_spec (hn : nSize < 2 ^ 63)
    (h : Good src nBufSize nRewind s) :
    ∃ o, read src nSize s = some o ∧ Delivers src nBufSize nRewind s o ∧
      o.state.nReadPos = s.nReadPos + o.bytes.length ∧
      (o.error = none → o.bytes.length = nSize) := by
  rw [read]
  split_ifs
  · exact ⟨_, rfl, ⟨h, .nil _⟩, rfl, fun h => by cases h⟩
  · exact ⟨_, rfl, ⟨h, .nil _⟩, rfl, fun h => by cases h⟩
  · exact readLoop_spec (le_refl _) hn h

/-- A search from a position either has stopped on the byte and skipped no other one, or has failed
without having met it. -/
def Searched (ch : UInt8) (pos : Nat) (o : Outcome) : Prop :=
  (o.error = none ∧ ∃ skipped, o.bytes = skipped ++ [ch] ∧ ch ∉ skipped ∧
      o.state.nReadPos = pos + skipped.length) ∨
    (o.error ≠ none ∧ ch ∉ o.bytes ∧ o.state.nReadPos = pos + o.bytes.length)

theorem Searched.after (h : Searched ch (pos + 1) o) (hne : c ≠ ch) :
    Searched ch pos (o.after [c]) := by
  rcases h with ⟨he, skipped, hbytes, hskipped, hpos⟩ | ⟨he, hbytes, hpos⟩
  · refine .inl ⟨he, c :: skipped, ?_, ?_, ?_⟩
    · rw [Outcome.after, hbytes]
      rfl
    · rw [mem_cons, not_or]
      exact ⟨hne.symm, hskipped⟩
    · rw [Outcome.after, hpos, length_cons]
      omega
  · refine .inr ⟨he, ?_, ?_⟩
    · rw [Outcome.after, singleton_append, mem_cons, not_or]
      exact ⟨hne.symm, hbytes⟩
    · rw [Outcome.after, hpos, singleton_append, length_cons]
      omega

theorem findByte_spec (ch : UInt8)
    (hturns : src.bytes.length < turns + s.nReadPos) (h : Good src nBufSize nRewind s) :
    ∃ o, findByte src ch turns s = some o ∧ Delivers src nBufSize nRewind s o ∧
      Searched ch s.nReadPos o := by
  induction turns generalizing s with
  | zero =>
    have hread := h.read_le
    have hsrc := h.src_le
    omega
  | succ turns ih =>
    obtain ⟨hgood, hread, hsome⟩ := fillIfEmpty_spec h
    rw [findByte]
    rcases hfill : fillIfEmpty src s with ⟨s₁, e | b⟩
    · rw [hfill] at hgood hread
      exact ⟨⟨s₁, [], some e⟩, rfl, ⟨hgood, .nil _⟩,
        .inr ⟨Option.some_ne_none e, not_mem_nil, hread⟩⟩
    · rw [hfill] at hgood hread hsome
      have hlt := hsome b rfl
      dsimp only at hgood hread hlt ⊢
      rw [← hread] at hlt
      have hsrc := hgood.src_le
      have hfile := src.size_lt
      -- the byte looked at is the file's
      have hbyte : FromFile src s.nReadPos [s₁.vchBuf (s₁.nReadPos % s₁.size)] := by
        have hget := hgood.holds s₁.nReadPos hlt hgood.window
        rw [← hgood.size_eq, getElem?_eq_some_iff] at hget
        obtain ⟨hin, hget⟩ := hget
        rw [FromFile, length_singleton, ← hread, drop_eq_getElem_cons hin, hget]
        rfl
      by_cases hc : s₁.vchBuf (s₁.nReadPos % s₁.size) = ch
      · rw [if_pos hc]
        refine ⟨_, rfl, ⟨hgood, hbyte⟩, .inl ⟨rfl, [], ?_, not_mem_nil, hread⟩⟩
        rw [hc]
        rfl
      · rw [if_neg hc, add64_eq (by omega)]
        obtain ⟨o, ho, hdel, hsearch⟩ := ih (s := { s₁ with nReadPos := s₁.nReadPos + 1 })
          (by dsimp only; omega) (hgood.advance hlt)
        rw [ho]
        dsimp only at hsearch
        rw [hread] at hsearch
        refine ⟨_, rfl, ⟨hdel.good, hbyte.append ?_⟩, hsearch.after hc⟩
        rw [length_singleton, ← hread]
        exact hdel.bytes

theorem setPos_good (hwrap : nPos + nRewind < 2 ^ 64)
    (h : Good src nBufSize nRewind s) : Good src nBufSize nRewind (setPos nPos s).2 := by
  have hrewind := h.rewind_lt
  have hsrc := h.src_le
  have hfile := src.size_lt
  have hreach : add64 nPos s.nRewind = nPos + nRewind := by rw [h.rewind_eq, add64_eq hwrap]
  rw [setPos, hreach]
  by_cases hback : nPos + nRewind < s.nSrcPos
  · have hdiff : sub64 s.nSrcPos s.nRewind = s.nSrcPos - nRewind := by
      rw [h.rewind_eq, sub64_eq (by omega) (by omega)]
    rw [if_pos hback, hdiff]
    exact h.moveTo (Nat.sub_le _ _) (by omega)
  · rw [if_neg hback]
    by_cases hfar : nPos > s.nSrcPos
    · rw [if_pos hfar]
      exact h.moveTo (le_refl _) (Nat.le_add_right _ _)
    · rw [if_neg hfar]
      exact h.moveTo (Nat.le_of_not_lt hfar) (by omega)

theorem setPos_iff (h : Good src nBufSize nRewind s) (hpos : nPos ≤ s.nReadPos) :
    ((setPos nPos s).1 = true ∧ (setPos nPos s).2.nReadPos = nPos) ↔
      s.nSrcPos ≤ nPos + nRewind := by
  have hsize := h.size_lt
  have hrewind := h.rewind_lt
  have hread := h.read_le
  have hsrc := h.src_le
  have hfile := src.size_lt
  have hreach : add64 nPos s.nRewind = nPos + nRewind := by
    rw [h.rewind_eq, add64_eq (by omega)]
  rw [setPos, hreach]
  by_cases hback : nPos + nRewind < s.nSrcPos
  · rw [if_pos hback]
    exact iff_of_false (fun h => Bool.false_ne_true h.1) (by omega)
  · rw [if_neg hback, if_neg (by omega)]
    exact iff_of_true ⟨rfl, rfl⟩ (by omega)

theorem setLimit_good (nPos : Nat) (h : Good src nBufSize nRewind s) :
    Good src nBufSize nRewind (setLimit nPos s).2 := by
  rw [setLimit]
  split_ifs
  · exact h
  · exact { h with }

end

def Allowed (s : CBufferedFile) : Call → Prop
  | .read nSize => nSize < 2 ^ 63
  | .findByte _ => True
  | .setPos nPos => nPos + s.nRewind < 2 ^ 64
  | .setLimit _ => True

/-- What a user may rely on: reads and searches deliver the bytes of the file, and which rewinds
within the guarantee take place. -/
structure Exact (src : Source) (turns nRewind : Nat) (s : CBufferedFile) : Prop where
  read : ∀ nSize < 2 ^ 63, ∃ o, read src nSize s = some o ∧ FromFile src s.nReadPos o.bytes ∧
    o.state.nReadPos = s.nReadPos + o.bytes.length ∧ (o.error = none → o.bytes.length = nSize)
  findByte : ∀ ch, ∃ o, findByte src ch turns s = some o ∧ FromFile src s.nReadPos o.bytes ∧
    Searched ch s.nReadPos o
  setPos : ∀ nPos, nPos ≤ s.nReadPos → s.nReadPos ≤ nPos + nRewind →
    (((setPos nPos s).1 = true ∧ (setPos nPos s).2.nReadPos = nPos) ↔
      s.nSrcPos ≤ nPos + nRewind)

section

variable {src : Source} {turns nBufSize nRewind : Nat} {s s' : CBufferedFile}

theorem good_ofFile (hsize : nBufSize < 2 ^ 32) (hrewind : nRewind < nBufSize) :
    Good src nBufSize nRewind (ofFile nBufSize nRewind) where
  size_lt := hsize
  rewind_lt := hrewind
  size_eq := rfl
  rewind_eq := rfl
  read_le := le_refl 0
  window := Nat.zero_le _
  src_le := Nat.zero_le _
  holds := holds_zero

theorem good_apply (hturns : src.bytes.length < turns) (h : Good src nBufSize nRewind s) (hcall : Allowed s call)
    (hs : apply src turns s call = some s') : Good src nBufSize nRewind s' := by
  cases call with
  | read nSize =>
    obtain ⟨o, ho, hdel, -⟩ := read_spec hcall h
    rw [apply, ho] at hs
    cases hs
    exact hdel.good
  | findByte ch =>
    obtain ⟨o, ho, hdel, -⟩ := findByte_spec ch (by omega : _ < turns + _) h
    rw [apply, ho] at hs
    cases hs
    exact hdel.good
  | setPos nPos =>
    cases hs
    exact setPos_good (h.rewind_eq ▸ hcall) h
  | setLimit nPos =>
    cases hs
    exact setLimit_good nPos h

theorem good_reach (hsize : nBufSize < 2 ^ 32) (hrewind : nRewind < nBufSize)
    (hturns : src.bytes.length < turns)
    (h : Reach ((system src turns nBufSize nRewind).under Allowed) s) :
    Good src nBufSize nRewind s := by
  refine Reach.invariant ?_ ?_ h
  · rintro _ rfl
    exact good_ofFile hsize hrewind
  · rintro s call s' hgood ⟨hcall, hs⟩
    exact good_apply hturns hgood hcall hs

end

/-- After any calls, a rewind by at most `nRewind` bytes succeeds exactly when it also reaches back
from the position up to which the buffer was filled. -/
theorem rewind_guarantee_iff (src : Source) (turns nBufSize nRewind : Nat)
    (hsize : nBufSize < 2 ^ 32) (hrewind : nRewind < nBufSize) (hturns : src.bytes.length < turns)
    (s : CBufferedFile) (h : Reach ((system src turns nBufSize nRewind).under Allowed) s) :
    Exact src turns nRewind s := by
  have hgood := good_reach hsize hrewind hturns h
  refine ⟨fun nSize hn => ?_, fun ch => ?_, fun nPos hpos _ => setPos_iff hgood hpos⟩
  · obtain ⟨o, ho, hdel, hrest⟩ := read_spec hn hgood
    exact ⟨o, ho, hdel.bytes, hrest⟩
  · obtain ⟨o, ho, hdel, hsearch⟩ := findByte_spec ch (by omega : _ < turns + _) hgood
    exact ⟨o, ho, hdel.bytes, hsearch⟩

def sixBytes : Source where
  bytes := [1, 2, 3, 4, 5, 6]
  size_lt := by decide
  fread _ pos n := min n (6 - pos)
  fread_le _ _ _ := Nat.min_le_left _ _
  fread_inside _ pos n h := by
    change pos ≤ 6 at h
    change pos + min n (6 - pos) ≤ 6
    omega
  feof _ := true

def afterOne (nBufSize nRewind : Nat) (filled : Bytes) : CBufferedFile where
  calls := 1
  nSrcPos := filled.length
  nReadPos := 1
  nReadLimit := 2 ^ 64 - 1
  nRewind := nRewind
  vchBuf := store (fun _ => 0) 0 filled
  size := nBufSize

theorem apply_one : apply sixBytes 7 (ofFile 4 1) (.read 1) = some (afterOne 4 1 [1, 2, 3]) := rfl

theorem rewind_guarantee_iff_afterOne :
    4 < 2 ^ 32 ∧ 1 < 4 ∧ sixBytes.bytes.length < 7 ∧
      Reach ((system sixBytes 7 4 1).under Allowed) (afterOne 4 1 [1, 2, 3]) ∧
      Exact sixBytes 7 1 (afterOne 4 1 [1, 2, 3]) := by
  have hreach : Reach ((system sixBytes 7 4 1).under Allowed) (afterOne 4 1 [1, 2, 3]) :=
    .step (i := .read 1) (.start rfl) ⟨(by decide : 1 < 2 ^ 63), apply_one⟩
  exact ⟨by decide, by decide, by decide, hreach,
    rewind_guarantee_iff sixBytes 7 4 1 (by decide) (by decide) (by decide) _ hreach⟩

/-- After one byte was read, `SetPos(0)` is refused although the file guarantees to rewind one byte.
A position that wraps around leads outside of the file, and a buffer of 2^32 bytes reads a byte that
is not there. -/
theorem rewind_of_one_refused :
    (Reach (system sixBytes 7 4 1) (afterOne 4 1 [1, 2, 3]) ∧
      (setPos 0 (afterOne 4 1 [1, 2, 3])).1 = false ∧
      (setPos 0 (afterOne 4 1 [1, 2, 3])).2.nReadPos = 2) ∧
    (∃ s, Reach (system sixBytes 7 16 10) s ∧ s.nReadPos = 2 ^ 64 - 4 ∧
      (read sixBytes 5 s).map Outcome.bytes = some [0, 0, 0, 0, 1]) ∧
    (findByte sixBytes 0 7 (ofFile (2 ^ 32) 0)).map Outcome.bytes = some [0] := by
  refine ⟨⟨?_, rfl, rfl⟩, ?_, rfl⟩
  · exact .step (i := .read 1) (.start rfl) apply_one
  · have hone : Reach (system sixBytes 7 16 10) (afterOne 16 10 [1, 2, 3, 4, 5, 6]) :=
      .step (i := .read 1) (.start rfl) rfl
    exact ⟨_, .step (i := .setPos (2 ^ 64 - 8)) hone rfl, rfl, rfl⟩

end Utsuite.BufferedFile
