import Utsuite.UosAddress

namespace Utsuite.PubKeyStream

open ByteWords WireFormat Transaction List
open UosAddress (getLen)

/-- A public key is an array of 65 bytes. One of 33 bytes leaves the rest of the array as it was. -/
structure CPubKey where
  vch : Bytes
  sizeof : vch.length = 65

def CPubKey.header (key : CPubKey) : UInt8 := key.vch.headD 0

def CPubKey.size (key : CPubKey) : Nat := getLen key.header

def CPubKey.isValid (key : CPubKey) : Prop := 0 < key.size

def CPubKey.bytes (key : CPubKey) : Bytes := key.vch.take key.size

def CPubKey.Same (a b : CPubKey) : Prop :=
  a.header = b.header ∧ a.vch.take a.size = b.vch.take a.size

def CPubKey.overwrite (key : CPubKey) (data : Bytes) : CPubKey where
  vch := (data ++ key.vch.drop data.length).take 65
  sizeof := by
    have := key.sizeof
    simp only [length_take, length_append, length_drop]
    omega

def CPubKey.invalidate (key : CPubKey) : CPubKey := key.overwrite [0xFF]

def CPubKey.serialize (key : CPubKey) : Bytes :=
  let len := key.size
  writeCompactSize len ++ key.vch.take len

def skip : Nat → Bytes → Option Bytes
  | 0, s => some s
  | len + 1, s => do
    let (_, s) ← front.read 1 s
    skip len s

def CPubKey.unserialize (key : CPubKey) (s : Bytes) : Option (CPubKey × Bytes) := do
  let (len, s) ← readCompactSize front s
  if len ≤ 65 then
    let (data, s) ← front.read len s
    pure (key.overwrite data, s)
  else
    let s ← skip len s
    pure (key.invalidate, s)

theorem overwrite_take (key : CPubKey) (hlen : data.length ≤ 65) (hn : n ≤ data.length) :
    (key.overwrite data).vch.take n = data.take n := by
  unfold CPubKey.overwrite
  rw [take_take, min_eq_left (hn.trans hlen), take_append_of_le_length hn]

theorem overwrite_header (key : CPubKey) :
    (key.overwrite (chHeader :: data)).header = chHeader := rfl

theorem overwrite_nil (key : CPubKey) : key.overwrite [] = key := by
  obtain ⟨vch, hlen⟩ := key
  simp [CPubKey.overwrite, ← hlen]

theorem not_isValid_invalidate (key : CPubKey) : ¬key.invalidate.isValid := by
  unfold CPubKey.isValid CPubKey.size CPubKey.invalidate
  rw [overwrite_header]
  decide

theorem invalidate_same (key key' : CPubKey) : key.invalidate.Same key'.invalidate :=
  ⟨rfl, rfl⟩

theorem overwrite_same (key key' : CPubKey) (hlen : (chHeader :: data).length ≤ 65)
    (hsize : getLen chHeader ≤ (chHeader :: data).length) :
    (key.overwrite (chHeader :: data)).Same (key'.overwrite (chHeader :: data)) :=
  ⟨rfl, (overwrite_take key hlen hsize).trans (overwrite_take key' hlen hsize).symm⟩

theorem skip_eq_drop (len : Nat) (s : Bytes) :
    skip len s = if len ≤ s.length then some (s.drop len) else none := by
  induction len generalizing s with
  | zero => rfl
  | succ len ih =>
    cases s with
    | nil => rfl
    | cons b s =>
      have hread : front.read 1 (b :: s) = some ([b], s) := rfl
      rw [skip, hread]
      change skip len s = _
      rw [ih, length_cons, drop_succ_cons]
      simp

theorem read_front_append (data rest : Bytes) :
    front.read data.length (data ++ rest) = some (data, rest) := by
  simp [front]

theorem unserialize_eq (key : CPubKey) (data rest : Bytes) (hmax : data.length ≤ MAX_SIZE) :
    key.unserialize (writeCompactSize data.length ++ (data ++ rest)) =
      some (if data.length ≤ 65 then key.overwrite data else key.invalidate, rest) := by
  unfold CPubKey.unserialize
  rw [readCompactSize_write hmax, Option.bind_eq_bind, Option.bind_some]
  dsimp only
  split
  · rw [read_front_append]
    rfl
  · rw [skip_eq_drop, if_pos (by simp), drop_left]
    rfl

theorem exists_data_of_unserialize {key key₁ : CPubKey} {s rest : Bytes}
    (h : key.unserialize s = some (key₁, rest)) :
    ∃ data, data.length ≤ MAX_SIZE ∧ s = writeCompactSize data.length ++ (data ++ rest) := by
  obtain ⟨⟨len, mid⟩, hlen, hbody⟩ := Option.bind_eq_some_iff.mp h
  obtain ⟨hmax, rfl⟩ := write_readCompactSize hlen
  have hdata : len ≤ mid.length ∧ rest = mid.drop len := by
    dsimp only at hbody
    split at hbody
    · obtain ⟨⟨data, tail⟩, hread, hpure⟩ := Option.bind_eq_some_iff.mp hbody
      unfold front at hread
      dsimp only at hread
      split at hread
      · rename_i hle
        cases hread
        cases hpure
        exact ⟨hle, rfl⟩
      · cases hread
    · obtain ⟨tail, hskip, hpure⟩ := Option.bind_eq_some_iff.mp hbody
      rw [skip_eq_drop] at hskip
      split at hskip
      · rename_i hle
        cases hskip
        cases hpure
        exact ⟨hle, rfl⟩
      · cases hskip
  obtain ⟨hle, rfl⟩ := hdata
  have htake : (mid.take len).length = len := length_take_of_le hle
  exact ⟨mid.take len, by rwa [htake], by rw [htake, take_append_drop]⟩

/-- Length and bytes of a key that is read are those of the stream, whatever the object held before.
-/
def OnlyStream (s : Bytes) : Prop :=
  ∀ (key key₁ : CPubKey) (rest : Bytes), key.unserialize s = some (key₁, rest) →
    ∃ len data, readCompactSize front s = some (len, data ++ rest) ∧ data.length = len ∧
      (key₁.isValid → len = getLen key₁.header ∧ key₁.bytes = data ∧
        s = key₁.serialize ++ rest) ∧
      ∀ key' : CPubKey, ∃ key₂, key'.unserialize s = some (key₂, rest) ∧ key₁.Same key₂

/-- The stream is cut short, announces too many bytes for a key, or announces the number that the
header asks for. -/
def WellDeclared (s : Bytes) : Prop :=
  ∀ len rest, readCompactSize front s = some (len, rest) → len ≤ rest.length →
    65 < len ∨ 0 < len ∧ ∃ chHeader, rest.head? = some chHeader ∧
      (getLen chHeader = 0 ∨ getLen chHeader = len)

theorem wellDeclared_data (data rest : Bytes) (hmax : data.length ≤ MAX_SIZE) :
    WellDeclared (writeCompactSize data.length ++ (data ++ rest)) ↔
      65 < data.length ∨ ∃ chHeader tail, data = chHeader :: tail ∧
        (getLen chHeader = 0 ∨ getLen chHeader = data.length) := by
  have hread := readCompactSize_write hmax (data ++ rest)
  constructor
  · intro h
    rcases h _ _ hread (by simp) with hlong | ⟨hpos, chHeader, hhead, hlen⟩
    · exact .inl hlong
    · cases data with
      | nil => exact absurd hpos (by simp)
      | cons b tail =>
        cases hhead
        exact .inr ⟨_, tail, rfl, hlen⟩
  · intro h len rest' hread' hle
    rw [hread] at hread'
    cases hread'
    rcases h with hlong | ⟨chHeader, tail, rfl, hlen⟩
    · exact .inl hlong
    · exact .inr ⟨by simp, chHeader, rfl, hlen⟩

theorem overwrite_read (key : CPubKey) (chHeader : UInt8) (tail : Bytes)
    (hlen : getLen chHeader = (chHeader :: tail).length)
    (hmax : (chHeader :: tail).length ≤ 65) :
    (key.overwrite (chHeader :: tail)).bytes = chHeader :: tail ∧
      (key.overwrite (chHeader :: tail)).serialize =
        writeCompactSize (chHeader :: tail).length ++ (chHeader :: tail) := by
  have hsize : (key.overwrite (chHeader :: tail)).size = (chHeader :: tail).length := hlen
  have hbytes := overwrite_take key hmax (le_refl (chHeader :: tail).length)
  rw [take_length] at hbytes
  unfold CPubKey.bytes CPubKey.serialize
  rw [hsize]
  exact ⟨hbytes, congrArg (_ ++ ·) hbytes⟩

def blankKey : CPubKey := ⟨replicate 65 0xFF, rfl⟩

def staleKey : CPubKey := ⟨0x02 :: replicate 64 0x11, rfl⟩

theorem onlyStream_of_wellDeclared {s : Bytes} (hs : WellDeclared s) : OnlyStream s := by
  intro key key₁ rest hkey
  obtain ⟨data, hmax, rfl⟩ := exists_data_of_unserialize hkey
  refine ⟨data.length, data, readCompactSize_write hmax _, rfl, ?_⟩
  have hevery := fun key' => unserialize_eq key' data rest hmax
  rw [hevery] at hkey
  cases hkey
  rcases (wellDeclared_data data rest hmax).mp hs with hlong | ⟨chHeader, tail, rfl, hlen⟩
  · simp only [if_neg (not_le.mpr hlong)] at hevery ⊢
    exact ⟨fun hvalid => absurd hvalid (not_isValid_invalidate key),
      fun key' => ⟨_, hevery key', invalidate_same key key'⟩⟩
  by_cases hle : (chHeader :: tail).length ≤ 65
  · simp only [if_pos hle] at hevery ⊢
    constructor
    · intro hvalid
      have hpos : 0 < getLen chHeader := hvalid
      have hlen : getLen chHeader = (chHeader :: tail).length := hlen.resolve_left (by omega)
      obtain ⟨hbytes, hserialize⟩ := overwrite_read key chHeader tail hlen hle
      exact ⟨hlen.symm, hbytes, by rw [hserialize, append_assoc]⟩
    · intro key'
      refine ⟨_, hevery key', overwrite_same key key' hle ?_⟩
      rcases hlen with hzero | hlen <;> omega
  · simp only [if_neg hle] at hevery ⊢
    exact ⟨fun hvalid => absurd hvalid (not_isValid_invalidate key),
      fun key' => ⟨_, hevery key', invalidate_same key key'⟩⟩

theorem wellDeclared_of_onlyStream (hs : OnlyStream s) : WellDeclared s := by
  intro len mid hread hle
  obtain ⟨hmax, rfl⟩ := write_readCompactSize hread
  obtain ⟨data, rest, rfl, rfl⟩ : ∃ data rest, data.length = len ∧ data ++ rest = mid :=
    ⟨mid.take len, mid.drop len, length_take_of_le hle, take_append_drop len mid⟩
  have hevery := fun key : CPubKey => unserialize_eq key data rest hmax
  by_contra hbad
  obtain ⟨hshort, hbad⟩ := not_or.mp hbad
  simp only [if_pos (Nat.not_lt.mp hshort)] at hevery
  obtain ⟨_, _, hdata, -, hvalid, hsame⟩ := hs blankKey _ _ (hevery blankKey)
  cases data with
  | nil =>
    -- Nothing is declared: each object stays what it was.
    obtain ⟨key₂, hkey₂, hheader, -⟩ := hsame staleKey
    rw [hevery staleKey] at hkey₂
    cases hkey₂
    rw [overwrite_nil, overwrite_nil] at hheader
    exact absurd hheader (by decide)
  | cons chHeader tail =>
    rw [readCompactSize_write hmax] at hdata
    obtain rfl := (Prod.mk.inj (Option.some.inj hdata)).1
    have hdeclared : ¬(getLen chHeader = 0 ∨ getLen chHeader = (chHeader :: tail).length) :=
      fun hlen => hbad ⟨Nat.succ_pos _, chHeader, rfl, hlen⟩
    obtain ⟨hzero, hlen⟩ := not_or.mp hdeclared
    exact hlen (hvalid (Nat.pos_of_ne_zero hzero)).1.symm

/-- Reading a public key depends on nothing but the stream exactly if the length it announces is the
one its header asks for. -/
theorem pubKey_from_stream_iff (s : Bytes) : OnlyStream s ↔ WellDeclared s :=
  ⟨wellDeclared_of_onlyStream, onlyStream_of_wellDeclared⟩

/-- Only one byte is read, and the other 32 bytes of the key are those that were left in the object.
-/
theorem stale_bytes_in_key :
    staleKey.unserialize [0x01, 0x03] = some (staleKey.overwrite [0x03], []) ∧
      (staleKey.overwrite [0x03]).isValid ∧
      (staleKey.overwrite [0x03]).bytes = 0x03 :: List.replicate 32 0x11 ∧
      ¬(staleKey.overwrite [0x03]).Same (blankKey.overwrite [0x03]) ∧
      ¬OnlyStream [0x01, 0x03] := by
  refine ⟨rfl, by unfold CPubKey.isValid; decide, rfl, ?_, ?_⟩
  · unfold CPubKey.Same
    decide
  · intro h
    have hkey : blankKey.unserialize [0x01, 0x03] = some (blankKey.overwrite [0x03], []) := rfl
    obtain ⟨len, data, hread, hdata, hvalid, -⟩ := h _ _ _ hkey
    have hone : readCompactSize front [0x01, 0x03] = some (1, [0x03]) := by decide
    rw [hone] at hread
    obtain rfl := (Prod.mk.inj (Option.some.inj hread)).1
    exact absurd (hvalid (by unfold CPubKey.isValid; decide)).1 (by decide)

end Utsuite.PubKeyStream
