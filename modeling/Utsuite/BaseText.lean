import Mathlib.Order.Bounds.Basic
import Mathlib.Tactic.IntervalCases
import Mathlib.Data.List.Forall2
import Mathlib.Data.Nat.ModEq
import Utsuite.BitPack

namespace Utsuite.BaseText

open ByteWords BitPack List

/-- A step takes the mode, the bits left over in it and the next input, and gives the new mode, the
new bits and what goes out. -/
abbrev Step := Nat × Nat → Nat → (Nat × Nat) × List Nat

def encode64 : Step
  | (0, _), enc => ((1, (enc &&& 3) <<< 4), [enc >>> 2])
  | (1, left), enc => ((2, (enc &&& 15) <<< 2), [left ||| enc >>> 4])
  | (_, left), enc => ((0, left), [left ||| enc >>> 6, enc &&& 63])

def decode64 : Step
  | (0, _), dec => ((1, dec), [])
  | (1, left), dec => ((2, dec &&& 15), [left <<< 2 ||| dec >>> 4])
  | (2, left), dec => ((3, dec &&& 3), [left <<< 4 ||| dec >>> 2])
  | (_, left), dec => ((0, left), [left <<< 6 ||| dec])

def encode32 : Step
  | (0, _), enc => ((1, (enc &&& 7) <<< 2), [enc >>> 3])
  | (1, left), enc => ((2, (enc &&& 1) <<< 4), [left ||| enc >>> 6, enc >>> 1 &&& 31])
  | (2, left), enc => ((3, (enc &&& 15) <<< 1), [left ||| enc >>> 4])
  | (3, left), enc => ((4, (enc &&& 3) <<< 3), [left ||| enc >>> 7, enc >>> 2 &&& 31])
  | (_, left), enc => ((0, left), [left ||| enc >>> 5, enc &&& 31])

def decode32 : Step
  | (0, _), dec => ((1, dec), [])
  | (1, left), dec => ((2, dec &&& 3), [left <<< 3 ||| dec >>> 2])
  | (2, left), dec => ((3, left <<< 5 ||| dec), [])
  | (3, left), dec => ((4, dec &&& 15), [left <<< 1 ||| dec >>> 4])
  | (4, left), dec => ((5, dec &&& 1), [left <<< 4 ||| dec >>> 1])
  | (5, left), dec => ((6, left <<< 5 ||| dec), [])
  | (6, left), dec => ((7, dec &&& 7), [left <<< 2 ||| dec >>> 3])
  | (_, left), dec => ((0, left), [left <<< 5 ||| dec])

def letters (first : Nat) : Bytes := (range' first 26).map .ofNat

def pbase64 : Bytes := letters 0x41 ++ letters 0x61 ++ (range' 0x30 10).map .ofNat ++ [0x2b, 0x2f]

def pbase32 : Bytes := letters 0x61 ++ (range' 0x32 6).map .ofNat

def decode64_table : List (Option Nat) :=
  replicate 43 none ++ [some 62] ++ replicate 3 none ++ [some 63] ++ (range' 52 10).map some ++
    replicate 7 none ++ (range 26).map some ++ replicate 6 none ++ (range' 26 26).map some ++
    replicate 133 none

def decode32_table : List (Option Nat) :=
  replicate 50 none ++ (range' 26 6).map some ++ replicate 9 none ++ (range 26).map some ++
    replicate 6 none ++ (range 26).map some ++ replicate 133 none

def feed (step : Step) (a : (Nat × Nat) × List Nat) (x : Nat) : (Nat × Nat) × List Nat :=
  let (s, ds) := step a.1 x
  (s, a.2 ++ ds)

/-- The data by which base 64 and base 32 differ. `needed` says how many marks must follow when a
text ends in a mode, and is `none` for the modes in which no text may end. -/
structure Scheme where
  encode : Step
  decode : Step
  alphabet : Bytes
  table : List (Option Nat)
  nPadding : List Nat
  needed : List (Option Nat)

namespace Scheme

variable (c : Scheme)

def char (d : Nat) : UInt8 := c.alphabet.getD d 0

def lookup (ch : UInt8) : Option Nat := c.table.getD ch.toNat none

def encodeText (pch : Bytes) : Bytes :=
  let ((mode, left), ds) := (pch.map UInt8.toNat).foldl (feed c.encode) ((0, 0), [])
  ds.map c.char ++ if mode = 0 then [] else c.char left :: replicate (c.nPadding.getD mode 0) 0x3d

def decodeLoop (a : (Nat × Nat) × List Nat) : Bytes → ((Nat × Nat) × List Nat) × Bytes
  | [] => (a, [])
  | ch :: p =>
    match c.lookup ch with
    | none => (a, ch :: p)
    | some dec => decodeLoop (feed c.decode a dec) p

def decodeText (p : Bytes) : Bytes × Bool :=
  let (((mode, left), vchRet), p) := c.decodeLoop ((0, 0), []) p
  (vchRet.map .ofNat, match c.needed.getD mode none with
    | none => true
    | some 0 => false
    | some n => left != 0 || p.take n != replicate n 0x3d || (c.lookup (p.getD n 0)).isSome)

end Scheme

def scheme64 : Scheme :=
  ⟨encode64, decode64, pbase64, decode64_table, [0, 2, 1], [some 0, none, some 2, some 1]⟩

def scheme32 : Scheme :=
  ⟨encode32, decode32, pbase32, decode32_table, [0, 6, 4, 3, 1],
    [some 0, none, some 6, none, some 4, some 3, none, some 1]⟩

def encodeBase64 : Bytes → Bytes := scheme64.encodeText

def decodeBase64 : Bytes → Bytes × Bool := scheme64.decodeText

def encodeBase32 : Bytes → Bytes := scheme32.encodeText

def decodeBase32 : Bytes → Bytes × Bool := scheme32.decodeText

def lower (ch : UInt8) : UInt8 := if 0x41 ≤ ch ∧ ch ≤ 0x5a then ch + 0x20 else ch

/-- The invariant of both loops. The `b` bits of `v` went out in groups of `o`, except for those
that the mode still holds, shifted `lift` places up. -/
def Holds (o modes : Nat) (held lift : Nat → Nat) (v b : Nat) (a : (Nat × Nat) × List Nat) : Prop :=
  a.1.1 < modes ∧ (∀ y ∈ a.2, y < 2 ^ o) ∧ b = o * a.2.length + held a.1.1 ∧
    (a.1.1 = 0 ∨ a.1.2 = (v % 2 ^ held a.1.1) <<< lift a.1.1) ∧
    ofDigits (2 ^ o) a.2 = v / 2 ^ held a.1.1

instance : Decidable (Holds o modes held lift v b a) := inferInstanceAs (Decidable (_ ∧ _))

structure Regroups (step : Step) (i o modes : Nat) (held lift : Nat → Nat) : Prop where
  stale : ∀ left x, step (0, left) x = step (0, 0) x
  start : held 0 = 0
  pos : 0 < modes
  step : ∀ m < modes, ∀ p < 2 ^ held m, ∀ x < 2 ^ i,
    Holds o modes held lift (p * 2 ^ i + x) (held m + i) (step (m, p <<< lift m) x)

section

variable {step : Step} {i o modes : Nat} {held lift : Nat → Nat} {xs : List Nat}

theorem Regroups.step_eq (h : Regroups step i o modes held lift)
    (hleft : m = 0 ∨ left = (v % 2 ^ held m) <<< lift m) :
    step (m, left) x = step (m, (v % 2 ^ held m) <<< lift m) x := by
  obtain rfl | rfl := hleft
  · rw [h.stale left, h.stale ((v % _) <<< _)]
  · rfl

theorem Regroups.feed (h : Regroups step i o modes held lift) (ha : Holds o modes held lift v b a)
    (hx : x < 2 ^ i) : Holds o modes held lift (v * 2 ^ i + x) (b + i) (feed step a x) := by
  obtain ⟨⟨m, left⟩, out⟩ := a
  obtain ⟨hm, hlt, hbits, hleft, hvalue⟩ := ha
  have hspec := h.step m hm _ (Nat.mod_lt v (Nat.two_pow_pos _)) x hx
  rw [← h.step_eq hleft] at hspec
  rw [BaseText.feed]
  generalize step (m, left) x = r at hspec ⊢
  obtain ⟨⟨m', left'⟩, ys⟩ := r
  obtain ⟨hm', hys, hlen, hleft', hvalue'⟩ := hspec
  dsimp only at *
  -- what went out before lies above the bits of this step
  have hw : v * 2 ^ i + x =
      2 ^ held m' * (v / 2 ^ held m * (2 ^ o) ^ ys.length) + (v % 2 ^ held m * 2 ^ i + x) := by
    have hpow : 2 ^ held m * 2 ^ i = (2 ^ o) ^ ys.length * 2 ^ held m' := by
      rw [← pow_add, ← pow_mul, ← pow_add, hlen]
    nth_rewrite 1 [← Nat.div_add_mod v (2 ^ held m)]
    rw [add_mul, mul_right_comm, hpow]
    ring
  refine ⟨hm', fun y hy => (mem_append.mp hy).elim (hlt y) (hys y), ?_, ?_, ?_⟩
  · rw [hbits, length_append, mul_add, add_assoc, hlen, add_assoc]
  · rwa [hw, Nat.mul_add_mod]
  · rw [hw, Nat.mul_add_div (Nat.two_pow_pos _), ofDigits_append, hvalue, hvalue']

theorem Regroups.foldl (h : Regroups step i o modes held lift) (ha : Holds o modes held lift v b a)
    (hxs : ∀ x ∈ xs, x < 2 ^ i) :
    Holds o modes held lift (xs.foldl (fun acc d => acc * 2 ^ i + d) v) (b + i * xs.length)
      (xs.foldl (BaseText.feed step) a) := by
  induction xs generalizing v b a with
  | nil => exact ha
  | cons x xs ih =>
    rw [length_cons, mul_add_one, add_comm (i * _), ← add_assoc]
    exact ih (h.feed ha (hxs x mem_cons_self)) fun y hy => hxs y (mem_cons_of_mem _ hy)

theorem Regroups.run (h : Regroups step i o modes held lift) (hxs : ∀ x ∈ xs, x < 2 ^ i) :
    Holds o modes held lift (ofDigits (2 ^ i) xs) (i * xs.length)
      (xs.foldl (BaseText.feed step) ((0, 0), [])) := by
  have hzero : Holds o modes held lift 0 0 ((0, 0), []) :=
    ⟨h.pos, nofun, by simp [h.start], .inl rfl, by simp⟩
  simpa [ofDigits] using h.foldl hzero hxs

end

def held (bits : List Nat) (mode : Nat) : Nat := bits.getD mode 0

@[simp] theorem and_3 (x : Nat) : x &&& 3 = x % 4 := Nat.and_two_pow_sub_one_eq_mod x 2
@[simp] theorem and_7 (x : Nat) : x &&& 7 = x % 8 := Nat.and_two_pow_sub_one_eq_mod x 3
@[simp] theorem and_15 (x : Nat) : x &&& 15 = x % 16 := Nat.and_two_pow_sub_one_eq_mod x 4
@[simp] theorem and_31 (x : Nat) : x &&& 31 = x % 32 := Nat.and_two_pow_sub_one_eq_mod x 5
@[simp] theorem and_63 (x : Nat) : x &&& 63 = x % 64 := Nat.and_two_pow_sub_one_eq_mod x 6

@[simp] theorem or_eq_add (a : Nat) (h : b < 2 ^ i) : a <<< i ||| b = a * 2 ^ i + b := by
  rw [← Nat.shiftLeft_add_eq_or_of_lt h, Nat.shiftLeft_eq]

theorem encode64_regroups : Regroups encode64 8 6 3 (held [0, 2, 4]) (6 - held [0, 2, 4] ·) := by
  refine ⟨fun _ _ => rfl, rfl, by decide, fun m hm p hp x hx => ?_⟩
  interval_cases m <;> simp only [held, getD_cons_succ, getD_cons_zero] at hp
  all_goals
    simp (disch := omega) [encode64, held, Nat.shiftRight_eq_div_pow]
    simp [Holds, held, ofDigits, Nat.shiftLeft_eq]
    omega

theorem decode64_regroups : Regroups decode64 6 8 4 (held [0, 6, 4, 2]) fun _ => 0 := by
  refine ⟨fun _ _ => rfl, rfl, by decide, fun m hm p hp x hx => ?_⟩
  interval_cases m <;> simp only [held, getD_cons_succ, getD_cons_zero] at hp
  all_goals
    simp (disch := omega) [decode64, held, Nat.shiftRight_eq_div_pow]
    simp [Holds, held, ofDigits]
    omega

theorem encode32_regroups :
    Regroups encode32 8 5 5 (held [0, 3, 1, 4, 2]) (5 - held [0, 3, 1, 4, 2] ·) := by
  refine ⟨fun _ _ => rfl, rfl, by decide, fun m hm p hp x hx => ?_⟩
  interval_cases m <;> simp only [held, getD_cons_succ, getD_cons_zero] at hp
  all_goals
    simp (disch := omega) [encode32, held, Nat.shiftRight_eq_div_pow]
    simp [Holds, held, ofDigits, Nat.shiftLeft_eq]
    omega

theorem decode32_regroups : Regroups decode32 5 8 8 (held [0, 5, 2, 7, 4, 1, 6, 3]) fun _ => 0 := by
  refine ⟨fun _ _ => rfl, rfl, by decide, fun m hm p hp x hx => ?_⟩
  interval_cases m <;> simp only [held, getD_cons_succ, getD_cons_zero] at hp
  all_goals
    simp (disch := omega) [decode32, held, Nat.shiftRight_eq_div_pow]
    simp [Holds, held, ofDigits]
    omega

/-- A scheme whose tables fit together. Letters that `fold` makes equal mean the same to the
decoder, as upper and lower case do in base 32. -/
structure Codec extends Scheme where
  bits : Nat
  group : Nat
  fold : UInt8 → UInt8
  eModes : Nat
  dModes : Nat
  eHeld : Nat → Nat
  dHeld : Nat → Nat
  bits_le : 0 < bits ∧ bits ≤ 8
  group_pos : 0 < group
  encodes : Regroups encode 8 bits eModes eHeld (bits - eHeld ·)
  decodes : Regroups decode bits 8 dModes dHeld fun _ => 0
  eHeld_lt : ∀ m < eModes, m ≠ 0 → 0 < eHeld m ∧ eHeld m < bits
  dHeld_lt : ∀ m < dModes, dHeld m < 8
  alphabet_length : alphabet.length = 2 ^ bits
  lookup_char : ∀ d < 2 ^ bits, toScheme.lookup (toScheme.char d) = some d
  lookup_fold : ∀ ch, toScheme.lookup (fold ch) = toScheme.lookup ch
  lookup_mark : toScheme.lookup 0x3d = none
  lookup_zero : toScheme.lookup 0 = none
  padded : ∀ m < eModes, ∀ n l, 8 * n = bits * l + eHeld m →
    if m = 0 then l % group = 0
    else (l + 1 + nPadding.getD m 0) % group = 0 ∧ nPadding.getD m 0 < group
  ends : ∀ m < dModes, ∀ l n, bits * l = 8 * n + dHeld m → match needed.getD m none with
    | none => bits ≤ dHeld m
    | some k => dHeld m < bits ∧ (l + k) % group = 0 ∧ k < group ∧ (k = 0 ↔ m = 0)

theorem mod_unique (hj : (l + j) % m = 0) (hk : (l + k) % m = 0) (hjm : j < m) (hkm : k < m) : j = k := by
  have h : Nat.ModEq m j k := Nat.ModEq.add_left_cancel' l (hj.trans hk.symm)
  exact h.eq_of_lt_of_lt hjm hkm

theorem eq_of_value (h : ∀ d ∈ ds, d < b) (h' : ∀ d ∈ ds', d < b) (hlen : ds.length = ds'.length)
    (hvalue : ofDigits b ds = ofDigits b ds') : ds = ds' := by
  rw [← digits_ofDigits h, ← digits_ofDigits h', hlen, hvalue]

theorem toNat_lt_of_mem (x : Bytes) : ∀ y ∈ x.map UInt8.toNat, y < 2 ^ 8 := by
  intro y hy
  obtain ⟨ch, -, rfl⟩ := mem_map.mp hy
  exact ch.toNat_lt

namespace Codec

variable (c : Codec) {cs : Bytes} {ds : List Nat}

def Spells (cs : Bytes) (ds : List Nat) : Prop := Forall₂ (fun ch d => c.lookup ch = some d) cs ds

structure Fills (x : List Nat) (q : Nat) (ds : List Nat) : Prop where
  lt : ∀ d ∈ ds, d < 2 ^ c.bits
  length : c.bits * ds.length = 8 * x.length + q
  value : ofDigits (2 ^ c.bits) ds = ofDigits (2 ^ 8) x * 2 ^ q

theorem encodeText_eq (x : Bytes) : ∃ ds n q, c.encodeText x = ds.map c.char ++ replicate n 0x3d ∧
    q < c.bits ∧ (ds.length + n) % c.group = 0 ∧ n < c.group ∧ c.Fills (x.map UInt8.toNat) q ds := by
  have h := c.encodes.run (toNat_lt_of_mem x)
  rw [Scheme.encodeText]
  generalize x.map UInt8.toNat = x at *
  generalize x.foldl (feed c.encode) _ = r at *
  obtain ⟨⟨mode, left⟩, ds⟩ := r
  obtain ⟨hm, hlt, hbits, hleft, hvalue⟩ := h
  dsimp only at *
  have hpad := c.padded mode hm _ _ hbits
  by_cases hzero : mode = 0
  · subst hzero
    rw [c.encodes.start, add_zero] at hbits
    rw [c.encodes.start, pow_zero, Nat.div_one] at hvalue
    refine ⟨ds, 0, 0, by simp, c.bits_le.1, hpad, c.group_pos, hlt, hbits.symm, ?_⟩
    rw [hvalue, pow_zero, mul_one]
  · obtain ⟨hpos, hheld⟩ := c.eHeld_lt mode hm hzero
    have hleft := hleft.resolve_left hzero
    rw [if_neg hzero] at hpad
    have hpow : 2 ^ c.bits = 2 ^ c.eHeld mode * 2 ^ (c.bits - c.eHeld mode) := by
      rw [← pow_add, Nat.add_sub_cancel' hheld.le]
    have hlast : left < 2 ^ c.bits := by
      rw [hleft, Nat.shiftLeft_eq, hpow]
      exact Nat.mul_lt_mul_of_pos_right (Nat.mod_lt _ (Nat.two_pow_pos _)) (Nat.two_pow_pos _)
    refine ⟨ds ++ [left], _, c.bits - c.eHeld mode, ?_, by omega, ?_, hpad.2, ?_, ?_, ?_⟩
    · simp [if_neg hzero]
    · simpa using hpad.1
    · exact fun d hd => (mem_append.mp hd).elim (hlt d) fun hd => mem_singleton.mp hd ▸ hlast
    · rw [length_append, length_singleton, mul_add_one]
      omega
    · rw [ofDigits_concat, hvalue, hleft, Nat.shiftLeft_eq, hpow, ← mul_assoc, ← add_mul, mul_comm (_ / _),
        Nat.div_add_mod]

theorem decodeLoop_eq (h : c.Spells cs ds) (n : Nat) :
    c.decodeLoop a (cs ++ replicate n 0x3d) = (ds.foldl (feed c.decode) a, replicate n 0x3d) := by
  induction h generalizing a with
  | nil => cases n <;> simp [Scheme.decodeLoop, replicate_succ, c.lookup_mark]
  | cons hch _ ih =>
    simp only [cons_append, Scheme.decodeLoop, hch]
    exact ih

theorem decodeText_eq (h : c.Spells cs ds) (hds : ∀ d ∈ ds, d < 2 ^ c.bits)
    (hn : (ds.length + n) % c.group = 0) (hlt : n < c.group) : ∃ out b,
    c.decodeText (cs ++ replicate n 0x3d) =
      (out.map .ofNat, !decide (b < c.bits ∧ ofDigits (2 ^ c.bits) ds % 2 ^ b = 0)) ∧ b < 8 ∧
      (∀ y ∈ out, y < 2 ^ 8) ∧ c.bits * ds.length = 8 * out.length + b ∧
      ofDigits (2 ^ 8) out = ofDigits (2 ^ c.bits) ds / 2 ^ b := by
  have hrun := c.decodes.run hds
  rw [Scheme.decodeText, c.decodeLoop_eq h]
  generalize ds.foldl (feed c.decode) _ = r at hrun ⊢
  obtain ⟨⟨mode, left⟩, out⟩ := r
  obtain ⟨hm, hout, hbits, hleft, hvalue⟩ := hrun
  refine ⟨out, c.dHeld mode, ?_, c.dHeld_lt mode hm, hout, hbits, hvalue⟩
  have hends := c.ends mode hm _ _ hbits
  dsimp only at *
  congr 1
  split at hends
  · next hnone =>
      rw [hnone]
      simp [Nat.not_lt.mpr hends]
  · next k hk =>
      obtain ⟨hb, hk', hkm, hmode⟩ := hends
      obtain rfl := mod_unique hn hk' hlt hkm
      rw [hk]
      obtain _ | n := n
      · obtain rfl := hmode.mp rfl
        simp [c.decodes.start, Nat.mod_one, c.bits_le.1]
      · have hleft := hleft.resolve_left fun h => by simpa using hmode.mpr h
        simp [hb, hleft, c.lookup_zero, bne, Bool.beq_eq_decide_eq]

theorem spells_chars (h : ∀ d ∈ ds, d < 2 ^ c.bits) : c.Spells (ds.map c.char) ds := by
  rw [Spells, forall₂_map_left_iff, forall₂_same]
  exact fun d hd => c.lookup_char d (h d hd)

theorem round_trip (x : Bytes) : c.decodeText (c.encodeText x) = (x, false) := by
  obtain ⟨ds, n, q, htext, hq, hn, hlt, hds⟩ := c.encodeText_eq x
  obtain ⟨out, b, hdecode, hb, hout, hlen, hvalue⟩ := c.decodeText_eq (c.spells_chars hds.lt) hds.lt hn hlt
  have hbits := c.bits_le.2
  have hlength := hds.length
  obtain ⟨rfl, hsame⟩ : b = q ∧ out.length = (x.map UInt8.toNat).length := by omega
  rw [hds.value, Nat.mul_div_cancel _ (Nat.two_pow_pos _)] at hvalue
  have hid : (UInt8.ofNat ∘ UInt8.toNat : UInt8 → UInt8) = id := funext fun _ => UInt8.ofNat_toNat
  rw [htext, hdecode, hds.value, eq_of_value hout (toNat_lt_of_mem x) hsame hvalue, map_map, hid, map_id]
  simp [hq]

theorem spells_of_mem (h : ∀ ch ∈ cs, c.fold ch ∈ c.alphabet) :
    ∃ ds, c.Spells cs ds ∧ (∀ d ∈ ds, d < 2 ^ c.bits) ∧ cs.map c.fold = ds.map c.char := by
  induction cs with
  | nil => exact ⟨[], .nil, nofun, rfl⟩
  | cons ch cs ih =>
    obtain ⟨hch, hcs⟩ := forall_mem_cons.mp h
    obtain ⟨ds, hspells, hds, hfold⟩ := ih hcs
    obtain ⟨d, hd, hget⟩ := mem_iff_getElem.mp hch
    have hchar : c.char d = c.fold ch := by rw [Scheme.char, getD_eq_getElem _ _ hd, hget]
    rw [c.alphabet_length] at hd
    refine ⟨d :: ds, .cons ?_ hspells, forall_mem_cons.mpr ⟨hd, hds⟩, by rw [map_cons, map_cons, hchar, hfold]⟩
    rw [← c.lookup_fold, ← hchar, c.lookup_char d hd]

/-- A text over the alphabet with the right number of marks is valid exactly when encoding its
result gives the same text again. -/
theorem valid_iff (h : ∀ ch ∈ cs, c.fold ch ∈ c.alphabet) (hn : (cs.length + n) % c.group = 0)
    (hlt : n < c.group) (hmark : c.fold 0x3d = 0x3d) :
    (c.decodeText (cs ++ replicate n 0x3d)).2 = false ↔
      c.encodeText (c.decodeText (cs ++ replicate n 0x3d)).1 = (cs ++ replicate n 0x3d).map c.fold := by
  obtain ⟨ds, hspells, hds, hfold⟩ := c.spells_of_mem h
  rw [map_append, hfold, map_replicate, hmark, hspells.length_eq] at *
  constructor
  · obtain ⟨out, b, hdecode, hb, hout, hlen, hvalue⟩ := c.decodeText_eq hspells hds hn hlt
    rw [hdecode]
    intro hvalid
    obtain ⟨hbb, hzero⟩ : b < c.bits ∧ ofDigits (2 ^ c.bits) ds % 2 ^ b = 0 := by simpa using hvalid
    obtain ⟨ds', n', q, htext, hq, hn', hlt', hds'⟩ := c.encodeText_eq (out.map .ofNat)
    have hbytes : (out.map UInt8.ofNat).map UInt8.toNat = out := by
      rw [map_map]
      exact (map_congr_left fun y hy => UInt8.toNat_ofNat_of_lt (hout y hy)).trans (map_id' out)
    rw [hbytes] at hds'
    have hlen' := hds'.length
    obtain rfl : q = b :=
      mod_unique (by rw [← hlen', Nat.mul_mod_right]) (by rw [← hlen, Nat.mul_mod_right]) hq hbb
    obtain rfl : ds' = ds := by
      apply eq_of_value hds'.lt hds (Nat.eq_of_mul_eq_mul_left c.bits_le.1 (hlen'.trans hlen.symm))
      rw [hds'.value, hvalue, Nat.div_mul_cancel (Nat.dvd_of_mod_eq_zero hzero)]
    rw [htext, mod_unique hn' hn hlt' hlt]
  · intro hencode
    have hround := c.round_trip (c.decodeText (cs ++ replicate n 0x3d)).1
    rw [hencode, Scheme.decodeText, c.decodeLoop_eq (c.spells_chars hds)] at hround
    rw [Scheme.decodeText, c.decodeLoop_eq hspells] at hround ⊢
    exact congrArg Prod.snd hround

end Codec

def codec64 : Codec where
  toScheme := scheme64
  bits := 6
  group := 4
  fold := id
  eModes := 3
  dModes := 4
  eHeld := held [0, 2, 4]
  dHeld := held [0, 6, 4, 2]
  bits_le := by decide
  group_pos := by decide
  encodes := encode64_regroups
  decodes := decode64_regroups
  eHeld_lt := by decide
  dHeld_lt := by decide
  alphabet_length := rfl
  lookup_char := by decide +kernel
  lookup_fold _ := rfl
  lookup_mark := rfl
  lookup_zero := rfl
  padded m hm n l h := by
    interval_cases m <;> simp [held, scheme64] at h ⊢ <;> omega
  ends m hm l n h := by
    interval_cases m <;> simp [held, scheme64] at h ⊢ <;> omega

def codec32 : Codec where
  toScheme := scheme32
  bits := 5
  group := 8
  fold := lower
  eModes := 5
  dModes := 8
  eHeld := held [0, 3, 1, 4, 2]
  dHeld := held [0, 5, 2, 7, 4, 1, 6, 3]
  bits_le := by decide
  group_pos := by decide
  encodes := encode32_regroups
  decodes := decode32_regroups
  eHeld_lt := by decide
  dHeld_lt := by decide
  alphabet_length := rfl
  lookup_char := by decide +kernel
  lookup_fold := byte_cases (by decide +kernel)
  lookup_mark := rfl
  lookup_zero := rfl
  padded m hm n l h := by
    interval_cases m <;> simp [held, scheme32] at h ⊢ <;> omega
  ends m hm l n h := by
    interval_cases m <;> simp [held, scheme32] at h ⊢ <;> omega

theorem mod_of_isLeast (hm : 0 < m) (h : IsLeast {n | m ∣ l + n} n) : (l + n) % m = 0 ∧ n < m := by
  refine ⟨Nat.mod_eq_zero_of_dvd h.1, Nat.lt_of_not_ge fun hge => ?_⟩
  have hsub : m ∣ l + (n - m) := by
    rw [← Nat.add_sub_assoc hge]
    exact Nat.dvd_sub h.1 dvd_rfl
  have hle := h.2 hsub
  omega

/-- In both bases, decoding undoes encoding. A text with the marks that its length asks for is
accepted exactly when it is the encoding of its result, up to case in base 32. -/
theorem base_text_round_trip :
    (∀ x, decodeBase64 (encodeBase64 x) = (x, false)) ∧
    (∀ x, decodeBase32 (encodeBase32 x) = (x, false)) ∧
    (∀ cs n, (∀ ch ∈ cs, ch ∈ pbase64) → IsLeast {n | 4 ∣ cs.length + n} n →
      ((decodeBase64 (cs ++ replicate n 0x3d)).2 = false ↔
        encodeBase64 (decodeBase64 (cs ++ replicate n 0x3d)).1 = cs ++ replicate n 0x3d)) ∧
    (∀ cs n, (∀ ch ∈ cs, lower ch ∈ pbase32) → IsLeast {n | 8 ∣ cs.length + n} n →
      ((decodeBase32 (cs ++ replicate n 0x3d)).2 = false ↔
        encodeBase32 (decodeBase32 (cs ++ replicate n 0x3d)).1 =
          (cs ++ replicate n 0x3d).map lower)) := by
  refine ⟨codec64.round_trip, codec32.round_trip, fun cs n hcs hn => ?_, fun cs n hcs hn => ?_⟩
  · obtain ⟨hmod, hlt⟩ := mod_of_isLeast (by decide) hn
    have h := codec64.valid_iff hcs hmod hlt rfl
    rwa [show codec64.fold = id from rfl, map_id] at h
  · obtain ⟨hmod, hlt⟩ := mod_of_isLeast (by decide) hn
    exact codec32.valid_iff hcs hmod hlt rfl

end Utsuite.BaseText
