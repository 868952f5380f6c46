import Utsuite.Equihash

namespace Utsuite.EquihashCodec

open ByteWords BitPack Equihash List Function

theorem window_mod (h : a + L ≤ 32) : ((V % 2 ^ 32) >>> a) % 2 ^ L = (V >>> a) % 2 ^ L := by
  apply Nat.eq_of_testBit_eq
  intro i
  simp only [Nat.testBit_mod_two_pow, Nat.testBit_shiftRight]
  by_cases hi : i < L
  · have : a + i < 32 := by omega
    simp [hi, this]
  · simp [hi]

theorem accumulate (hv : v < 2 ^ L) (hL : L ≤ 32) :
    ((V % 2 ^ 32) <<< L) % 2 ^ 32 ||| v = (V * 2 ^ L + v) % 2 ^ 32 := by
  have hv' : v % 2 ^ 32 = v :=
    Nat.mod_eq_of_lt (lt_of_lt_of_le hv (Nat.pow_le_pow_right (by decide) hL))
  have hmod : ((V % 2 ^ 32) <<< L) % 2 ^ 32 = (V <<< L) % 2 ^ 32 := by
    rw [Nat.shiftLeft_eq, Nat.shiftLeft_eq, Nat.mod_mul_mod]
  calc ((V % 2 ^ 32) <<< L) % 2 ^ 32 ||| v = (V <<< L) % 2 ^ 32 ||| v % 2 ^ 32 := by
        rw [hmod, hv']
    _ = (V <<< L ||| v) % 2 ^ 32 := Nat.or_mod_two_pow.symm
    _ = (V <<< L + v) % 2 ^ 32 := by rw [Nat.shiftLeft_add_eq_or_of_lt hv]
    _ = (V * 2 ^ L + v) % 2 ^ 32 := by rw [Nat.shiftLeft_eq]

theorem ofNat_mod_256 (n : Nat) : UInt8.ofNat (n % 256) = UInt8.ofNat n := by
  apply UInt8.toNat_inj.mp
  simp

section

variable {bitLen bytePad : Nat}

abbrev elementWrites (bitLen bytePad acc a j : Nat) : List (Nat × UInt8) :=
  (range bytePad).map (fun x => (j + x, 0)) ++
    (range' bytePad ((bitLen + 7) / 8 + bytePad - bytePad)).map fun x =>
      (j + x, .ofNat ((acc >>> (a + 8 * ((bitLen + 7) / 8 + bytePad - x - 1))) &&&
        (((2 ^ bitLen - 1) >>> (8 * ((bitLen + 7) / 8 + bytePad - x - 1))) &&& 0xFF)))

theorem expand_element (acc a j : Nat) (hpad : 2 ^ bitLen ≤ 256 ^ ((bitLen + 7) / 8)) :
    (elementWrites bitLen bytePad acc a j).map Prod.snd =
      beBytes (bytePad + (bitLen + 7) / 8) ((acc >>> a) % 2 ^ bitLen) := by
  have hlt : (acc >>> a) % 2 ^ bitLen < 256 ^ ((bitLen + 7) / 8) :=
    lt_of_lt_of_le (Nat.mod_lt _ (Nat.two_pow_pos _)) hpad
  rw [beBytes_pad bytePad hlt, beBytes_eq_map, elementWrites, Nat.add_sub_cancel,
    range'_eq_map_range, map_append, map_map, map_map, map_map]
  congr 1
  · simp [comp_def, map_const']
  apply map_congr_left
  intro x _
  have hx : (bitLen + 7) / 8 + bytePad - (bytePad + x) - 1 = (bitLen + 7) / 8 - x - 1 := by omega
  rw [comp_apply, comp_apply, hx, window_byte, ofNat_mod_256]

theorem element_places (acc a j : Nat) : (elementWrites bitLen bytePad acc a j).map Prod.fst =
    (range ((bitLen + 7) / 8 + bytePad)).map (j + ·) := by
  have hrange : range ((bitLen + 7) / 8 + bytePad) =
      range bytePad ++ range' bytePad ((bitLen + 7) / 8 + bytePad - bytePad) := by
    rw [range_eq_range', range_eq_range', Nat.add_sub_cancel, add_comm]
    simpa using (@range'_append 0 bytePad ((bitLen + 7) / 8) 1).symm
  rw [map_append, map_map, map_map, hrange, map_append]
  rfl

theorem two_pow_le_bytes (bitLen : Nat) : 2 ^ bitLen ≤ 256 ^ ((bitLen + 7) / 8) := by
  rw [show 256 = 2 ^ 8 from rfl, ← pow_mul]
  exact Nat.pow_le_pow_right (by decide) (by omega)

/-- The invariant of `ExpandArray` after the bytes `bs`. It has written `m` elements without a gap,
and the bits left over are the last ones of `bs`. -/
structure Expanded (bitLen bytePad : Nat) (bs : Bytes) (m : Nat) (s : Expansion) : Prop where
  bits_lt : s.accBits < bitLen
  bits_eq : 8 * bs.length = bitLen * m + s.accBits
  value_eq : s.accValue = beValue bs % 2 ^ 32
  bytes_eq : s.writes.map Prod.snd = (digits (2 ^ bitLen) m (beValue bs >>> s.accBits)).flatMap
    (beBytes (bytePad + (bitLen + 7) / 8))
  places_eq : s.writes.map Prod.fst = range s.j

theorem beValue_concat (bs : Bytes) (b : UInt8) :
    beValue (bs ++ [b]) = beValue bs * 2 ^ 8 + b.toNat := by
  rw [beValue_append]
  simp [beValue]

theorem shiftRight_concat (bs : Bytes) (b : UInt8) (a : Nat) :
    beValue (bs ++ [b]) >>> (8 + a) = beValue bs >>> a := by
  have hb := b.toNat_lt
  rw [beValue_concat, Nat.shiftRight_add]
  congr 1
  rw [Nat.shiftRight_eq_div_pow]
  omega

theorem expandStep_expanded (hge : 8 ≤ bitLen) (hle : bitLen ≤ 25)
    (h : Expanded bitLen bytePad bs m s) (b : UInt8) :
    ∃ m', Expanded bitLen bytePad (bs ++ [b]) m' (expandStep bitLen bytePad s b) := by
  have hvalue : (s.accValue <<< 8) % 2 ^ 32 ||| b.toNat = beValue (bs ++ [b]) % 2 ^ 32 := by
    rw [h.value_eq, beValue_concat]
    exact accumulate b.toNat_lt (by decide)
  have hbits := h.bits_eq
  have hlt := h.bits_lt
  have hlen : (bs ++ [b]).length = bs.length + 1 := by simp
  by_cases hfull : s.accBits + 8 ≥ bitLen
  · refine ⟨m + 1, ?_, ?_, ?_, ?_, ?_⟩ <;> simp only [expandStep, if_pos hfull]
    · omega
    · rw [hlen, Nat.mul_succ bitLen]
      omega
    · exact hvalue
    · rw [map_append, expand_element _ _ _ (two_pow_le_bytes bitLen), hvalue, window_mod (by omega),
        digits, flatMap_append, flatMap_singleton, h.bytes_eq]
      congr 3
      rw [← Nat.shiftRight_eq_div_pow, ← Nat.shiftRight_add,
        show s.accBits + 8 - bitLen + bitLen = 8 + s.accBits by omega, shiftRight_concat]
    · rw [map_append, element_places, h.places_eq]
      exact (range_add ..).symm
  · refine ⟨m, ?_, ?_, ?_, ?_, ?_⟩ <;> simp only [expandStep, if_neg hfull]
    · omega
    · omega
    · exact hvalue
    · rw [h.bytes_eq, add_comm s.accBits, shiftRight_concat]
    · exact h.places_eq

theorem foldl_expanded (hge : 8 ≤ bitLen) (hle : bitLen ≤ 25) (input : Bytes) :
    ∃ m, Expanded bitLen bytePad input m (input.foldl (expandStep bitLen bytePad) ⟨0, 0, 0, []⟩) := by
  induction input using reverseRecOn with
  | nil => exact ⟨0, (by omega : 0 < bitLen), rfl, rfl, rfl, rfl⟩
  | append_singleton bs b ih =>
    obtain ⟨m, h⟩ := ih
    rw [foldl_append]
    exact expandStep_expanded hge hle h b

theorem expandWrites_places (hge : 8 ≤ bitLen) (hle : bitLen ≤ 25) (input : Bytes) :
    (expandWrites input bitLen bytePad).map Prod.fst =
      range (expandArray input bitLen bytePad).length := by
  obtain ⟨_, h⟩ := @foldl_expanded _ bytePad hge hle input
  have hlen := congrArg length h.places_eq
  rw [length_map, length_range] at hlen
  rw [expandArray, length_map, expandWrites, hlen]
  exact h.places_eq

theorem expandArray_eq (hge : 8 ≤ bitLen) (hle : bitLen ≤ 25) (hlen : 8 * input.length = bitLen * m) :
    expandArray input bitLen bytePad = (digits (2 ^ bitLen) m (beValue input)).flatMap
      (beBytes (bytePad + (bitLen + 7) / 8)) := by
  obtain ⟨m', h⟩ := foldl_expanded hge hle input
  rw [expandArray, expandWrites]
  generalize input.foldl (expandStep bitLen bytePad) _ = s at h ⊢
  have hbits := h.bits_eq
  have hlt := h.bits_lt
  have hm : m' = m := by
    rw [hlen] at hbits
    have hmod := congrArg (· / bitLen) hbits
    simpa [Nat.mul_add_div (by omega : 0 < bitLen), Nat.div_eq_of_lt hlt,
      Nat.mul_div_cancel_left m (by omega : 0 < bitLen)] using hmod.symm
  subst hm
  have hzero : s.accBits = 0 := by omega
  rw [h.bytes_eq, hzero, Nat.shiftRight_zero]

end

section

variable {bitLen bytePad : Nat}

abbrev element (bitLen bytePad v : Nat) : Bytes := beBytes (bytePad + (bitLen + 7) / 8) v

theorem getD_element (hv : v < 2 ^ bitLen) (hx : x < (bitLen + 7) / 8) (rest : Bytes) :
    (element bitLen bytePad v ++ rest).getD (bytePad + x) 0 =
      .ofNat (v >>> (8 * ((bitLen + 7) / 8 - x - 1))) := by
  have hpad := beBytes_pad bytePad (lt_of_lt_of_le hv (two_pow_le_bytes bitLen))
  rw [element, hpad, beBytes_eq_map, append_assoc, getD_append_right _ _ _ _ (by simp)]
  rw [length_replicate, Nat.add_sub_cancel_left, getD_append _ _ _ _ (by simpa using hx)]
  simp [hx]

theorem byte_and_mask (hv : v < 2 ^ bitLen) (k : Nat) :
    (v >>> k) % 256 &&& (((2 ^ bitLen - 1) >>> k) &&& 0xFF) = (v >>> k) % 256 := by
  have hbyte : ∀ n : Nat, n % 256 = n &&& 0xFF := fun n =>
    (Nat.and_two_pow_sub_one_eq_mod n 8).symm
  calc (v >>> k) % 256 &&& (((2 ^ bitLen - 1) >>> k) &&& 0xFF)
      = (v >>> (0 + k) &&& (((2 ^ bitLen - 1) >>> k) &&& 0xFF)) &&& 0xFF := by
        rw [hbyte, zero_add, Nat.and_right_comm]
    _ = (v >>> k) % 256 &&& 0xFF := by
        rw [window_byte, Nat.shiftRight_zero, Nat.mod_eq_of_lt hv]
    _ = (v >>> k) % 256 := by rw [← hbyte, Nat.mod_mod]

theorem foldl_or_bytes (v acc n : Nat) :
    (range n).foldl (fun acc x =>
      acc ||| ((v >>> (8 * (n - x - 1))) % 256) <<< (8 * (n - x - 1))) acc =
      acc ||| v % 2 ^ (8 * n) := by
  induction n generalizing acc with
  | zero => simp [Nat.mod_one]
  | succ n ih =>
    rw [range_succ_eq_map, foldl_cons, foldl_map]
    simp only [Nat.succ_sub_succ_eq_sub, Nat.succ_eq_add_one, Nat.sub_zero]
    rw [ih, Nat.or_assoc]
    congr 1
    rw [← Nat.shiftLeft_add_eq_or_of_lt (Nat.mod_lt _ (Nat.two_pow_pos _)), Nat.shiftLeft_eq,
      Nat.shiftRight_eq_div_pow, Nat.mul_succ, Nat.pow_add, Nat.mod_mul]
    ring

theorem compressRead_element (hle : bitLen ≤ 25) (hv : v < 2 ^ bitLen)
    (hinput : s.input = element bitLen bytePad v ++ rest) (hvalue : s.accValue = V % 2 ^ 32) :
    compressRead bitLen bytePad s = { s with
      accValue := (V * 2 ^ bitLen + v) % 2 ^ 32
      input := rest
      accBits := s.accBits + bitLen } := by
  have hfold : (range' bytePad ((bitLen + 7) / 8 + bytePad - bytePad)).foldl (fun acc x =>
      acc ||| (((s.input.getD x 0).toNat &&&
        (((2 ^ bitLen - 1) >>> (8 * ((bitLen + 7) / 8 + bytePad - x - 1))) &&& 0xFF)) <<<
          (8 * ((bitLen + 7) / 8 + bytePad - x - 1)))) ((s.accValue <<< bitLen) % 2 ^ 32) =
      (V * 2 ^ bitLen + v) % 2 ^ 32 := by
    rw [Nat.add_sub_cancel, range'_eq_map_range, foldl_map,
      ← accumulate hv (by omega), ← hvalue]
    have hmod : v % 2 ^ (8 * ((bitLen + 7) / 8)) = v :=
      Nat.mod_eq_of_lt (lt_of_lt_of_le hv (Nat.pow_le_pow_right (by decide) (by omega)))
    conv_rhs => rw [← hmod]
    rw [← foldl_or_bytes]
    apply foldl_ext
    intro acc x hx
    have hx' := mem_range.mp hx
    have hk : (bitLen + 7) / 8 + bytePad - (bytePad + x) - 1 = (bitLen + 7) / 8 - x - 1 := by omega
    rw [hinput, getD_element hv hx', hk]
    rw [UInt8.toNat_ofNat', byte_and_mask hv]
  rw [compressRead, hfold, hinput]
  congr 1
  rw [drop_left' (by simp [add_comm])]

structure Compressed (bitLen bytePad : Nat) (vs : List Nat) (i e limit : Nat) (s : Compression) :
    Prop where
  read_le : e ≤ vs.length
  bits_eq : bitLen * e = 8 * i + s.accBits
  bits_le : s.accBits ≤ limit
  value_eq : s.accValue = ofDigits (2 ^ bitLen) (vs.take e) % 2 ^ 32
  input_eq : s.input = (vs.drop e).flatMap (element bitLen bytePad)
  out_eq : s.out = beBytes i (ofDigits (2 ^ bitLen) (vs.take e) >>> s.accBits)

variable {vs : List Nat} {i e : Nat} {s : Compression}

theorem ofDigits_take_succ (h : e < vs.length) :
    ofDigits b (vs.take (e + 1)) = ofDigits b (vs.take e) * b + vs[e] := by
  rw [take_succ_eq_append_getElem h, ofDigits_concat]

theorem compressRead_compressed (hle : bitLen ≤ 25) (hvs : ∀ v ∈ vs, v < 2 ^ bitLen)
    (h : Compressed bitLen bytePad vs i e 7 s) (he : e < vs.length) :
    Compressed bitLen bytePad vs i (e + 1) 32 (compressRead bitLen bytePad s) := by
  have hv : vs[e] < 2 ^ bitLen := hvs _ (getElem_mem he)
  have hinput : s.input = element bitLen bytePad vs[e] ++
      (vs.drop (e + 1)).flatMap (element bitLen bytePad) := by
    rw [h.input_eq, drop_eq_getElem_cons he, flatMap_cons]
  rw [compressRead_element hle hv hinput h.value_eq]
  refine ⟨he, ?_, ?_, ?_, rfl, ?_⟩
  · rw [Nat.mul_succ, h.bits_eq, add_assoc]
  · exact Nat.add_le_add h.bits_le hle
  · rw [ofDigits_take_succ he]
  · rw [h.out_eq, ofDigits_take_succ he, add_comm s.accBits, Nat.shiftRight_add]
    congr 2
    rw [Nat.shiftRight_eq_div_pow, mul_comm, Nat.mul_add_div (Nat.two_pow_pos _),
      Nat.div_eq_of_lt hv, add_zero]

theorem emit_byte (ha : a + 8 ≤ 32) :
    UInt8.ofNat (((V % 2 ^ 32) >>> a) &&& 0xFF) = UInt8.ofNat (V >>> a) := by
  have hwindow := window_mod (V := V) ha
  rw [show (0xFF : Nat) = 2 ^ 8 - 1 from rfl, Nat.and_two_pow_sub_one_eq_mod, hwindow]
  exact ofNat_mod_256 _

theorem Compressed.emit (h : Compressed bitLen bytePad vs i e 32 s) (hbits : 8 ≤ s.accBits) :
    Compressed bitLen bytePad vs (i + 1) e 24 { s with
      accBits := s.accBits - 8
      out := s.out ++ [UInt8.ofNat ((s.accValue >>> (s.accBits - 8)) &&& 0xFF)] } := by
  have heq := h.bits_eq
  have hle := h.bits_le
  refine ⟨h.read_le, ?_, ?_, h.value_eq, h.input_eq, ?_⟩ <;> dsimp only
  · omega
  · omega
  · rw [h.out_eq, h.value_eq, emit_byte (by omega), beBytes_succ]
    congr 2
    rw [show (256 : Nat) = 2 ^ 8 from rfl, ← Nat.shiftRight_eq_div_pow, ← Nat.shiftRight_add,
      Nat.sub_add_cancel hbits]

theorem compressStep_compressed (hge : 8 ≤ bitLen) (hle : bitLen ≤ 25)
    (hvs : ∀ v ∈ vs, v < 2 ^ bitLen) (h : Compressed bitLen bytePad vs i e 24 s)
    (hmore : 8 * (i + 1) ≤ bitLen * vs.length) :
    ∃ e', Compressed bitLen bytePad vs (i + 1) e' 24 (compressStep bitLen bytePad s) := by
  have hbits := h.bits_eq
  have hle24 := h.bits_le
  rw [compressStep]
  by_cases hlow : s.accBits < 8
  · have he : e < vs.length := by
      by_contra hge'
      have := Nat.mul_le_mul_left bitLen (Nat.le_of_not_lt hge')
      omega
    have hread := compressRead_compressed hle hvs { h with bits_le := Nat.le_of_lt_succ hlow } he
    have hbits' := hread.bits_eq
    rw [Nat.mul_succ] at hbits'
    rw [if_pos hlow]
    exact ⟨e + 1, hread.emit (by omega)⟩
  · rw [if_neg hlow]
    exact ⟨e, Compressed.emit { h with bits_le := by omega } (by omega)⟩

theorem iterate_compressed (hge : 8 ≤ bitLen) (hle : bitLen ≤ 25)
    (hvs : ∀ v ∈ vs, v < 2 ^ bitLen) (i : Nat) (hmore : 8 * i ≤ bitLen * vs.length) :
    ∃ e, Compressed bitLen bytePad vs i e 24 ((compressStep bitLen bytePad)^[i]
      ⟨0, 0, vs.flatMap (element bitLen bytePad), []⟩) := by
  induction i with
  | zero => exact ⟨0, Nat.zero_le _, rfl, Nat.zero_le _, rfl, rfl, rfl⟩
  | succ i ih =>
    obtain ⟨e, h⟩ := ih (by omega)
    rw [Function.iterate_succ_apply']
    exact compressStep_compressed hge hle hvs h hmore

theorem compressArray_eq (hge : 8 ≤ bitLen) (hle : bitLen ≤ 25) (hvs : ∀ v ∈ vs, v < 2 ^ bitLen)
    (hlen : 8 * outLen = bitLen * vs.length) :
    compressArray (vs.flatMap (element bitLen bytePad)) outLen bitLen bytePad =
      beBytes outLen (ofDigits (2 ^ bitLen) vs) := by
  obtain ⟨e, h⟩ := iterate_compressed hge hle hvs outLen (by omega)
  rw [compressArray]
  generalize (compressStep bitLen bytePad)^[outLen] _ = s at h ⊢
  have hbits := h.bits_eq
  have he : e = vs.length := by
    refine le_antisymm h.read_le ?_
    by_contra hlt
    have := Nat.mul_le_mul_left bitLen (show e + 1 ≤ vs.length by omega)
    rw [Nat.mul_succ bitLen] at this
    omega
  have hzero : s.accBits = 0 := by
    rw [he] at hbits
    omega
  rw [h.out_eq, he, take_length, hzero, Nat.shiftRight_zero]

end

theorem pieces_flatMap (hwidth : 0 < width) (f : α → Bytes) (hf : ∀ a, (f a).length = width)
    (l : List α) : pieces width (l.flatMap f) = l.map f := by
  have hlen : (l.flatMap f).length = l.length * width := by
    rw [length_flatMap]
    simp [hf]
  rw [pieces, hlen, Nat.mul_div_cancel _ hwidth]
  clear hlen
  induction l with
  | nil => rfl
  | cons a l ih =>
    rw [length_cons, range_succ_eq_map, map_cons, map_map, map_cons,
      ← ih]
    congr 1
    · simp [take_left' (hf a)]
    · apply map_congr_left
      intro k _
      rw [comp_apply, flatMap_cons, Nat.succ_mul, add_comm, ← drop_drop,
        drop_left' (hf a)]

def expandInto (input out : Bytes) (bitLen bytePad : Nat) : Bytes :=
  (expandWrites input bitLen bytePad).foldl (fun out w => out.set w.1 w.2) out

def inputBits (input : Bytes) : List Nat := input.flatMap fun b => digits 2 8 b.toNat

theorem foldl_set_range {ws : List (Nat × UInt8)} {out : Bytes} (h : ws.map Prod.fst = range n)
    (hn : n ≤ out.length) :
    ws.foldl (fun out w => out.set w.1 w.2) out = ws.map Prod.snd ++ out.drop n := by
  induction ws using reverseRecOn generalizing n with
  | nil =>
    obtain rfl : n = 0 := by simpa using (congrArg length h).symm
    rfl
  | append_singleton ws w ih =>
    cases n with
    | zero => simp at h
    | succ n =>
      rw [map_append, range_succ] at h
      obtain ⟨hws, hw⟩ := append_inj' h rfl
      obtain rfl : w.1 = n := by simpa using hw
      have hlen : (ws.map Prod.snd).length = w.1 := by simpa using congrArg length hws
      rw [foldl_append, ih hws (Nat.le_of_succ_le hn), drop_eq_getElem_cons hn, foldl_cons, foldl_nil,
        set_append_right _ _ hlen.le, hlen, Nat.sub_self, set_cons_zero, map_append, append_assoc]
      rfl

theorem inputBits_spec (input : Bytes) : (∀ d ∈ inputBits input, d < 2) ∧
    (inputBits input).length = 8 * input.length ∧ ofDigits 2 (inputBits input) = beValue input := by
  induction input using reverseRecOn with
  | nil => exact ⟨nofun, rfl, rfl⟩
  | append_singleton input b ih =>
    obtain ⟨hlt, hlen, hvalue⟩ := ih
    rw [inputBits, flatMap_append, flatMap_singleton, ← inputBits]
    refine ⟨fun d hd => (mem_append.mp hd).elim (hlt d) (digits_lt (by decide) _ _ d), ?_, ?_⟩
    · simp [hlen, mul_add]
    · rw [ofDigits_append, hvalue, digits_length, ofDigits_digits, beValue_concat,
        Nat.mod_eq_of_lt b.toNat_lt]

/-- `ExpandArray` writes each place of the output once and in order. Its elements are the groups of
`bitLen` bits of the input, each of them with zeros in front. -/
theorem expand_is_bit_slicing {bitLen bytePad : Nat} {input out : Bytes} (hge : 8 ≤ bitLen)
    (hle : bitLen ≤ 25) (hdvd : bitLen ∣ 8 * input.length)
    (hout : out.length = 8 * ((bitLen + 7) / 8 + bytePad) * input.length / bitLen) :
    (expandWrites input bitLen bytePad).map Prod.fst = range out.length ∧
      pieces ((bitLen + 7) / 8 + bytePad) (expandInto input out bitLen bytePad) =
        (range (8 * input.length / bitLen)).map fun j => replicate bytePad 0 ++
          beBytes ((bitLen + 7) / 8) (ofDigits 2 (((inputBits input).drop (bitLen * j)).take bitLen)) := by
  obtain ⟨m, hm⟩ := hdvd
  have hplaces := @expandWrites_places _ bytePad hge hle input
  obtain ⟨hlt, hlen, hvalue⟩ := inputBits_spec input
  have hdigits := digits_slice hlt (hlen.trans hm)
  have heq := @expandArray_eq _ bytePad _ _ hge hle hm
  rw [← hvalue, hdigits, flatMap_map] at heq
  have hlength : out.length = (expandArray input bitLen bytePad).length := by
    rw [hout, heq, mul_right_comm, hm, mul_assoc, Nat.mul_div_cancel_left _ (by omega)]
    simp [add_comm]
  rw [← hlength] at hplaces
  refine ⟨hplaces, ?_⟩
  rw [expandInto, foldl_set_range hplaces le_rfl, ← expandArray, drop_length, append_nil, heq, hm,
    Nat.mul_div_cancel_left _ (by omega), pieces_flatMap (by omega) _ (by simp [add_comm])]
  apply map_congr_left
  intro j _
  apply beBytes_pad
  apply lt_of_lt_of_le (ofDigits_lt fun d hd => hlt d (mem_of_mem_drop (mem_of_mem_take hd)))
  exact (Nat.pow_le_pow_right (by decide) (length_take_le _ _)).trans (two_pow_le_bytes bitLen)

theorem expand_is_bit_slicing_twoBytes :
    (expandWrites [0x12, 0x34] 16 2).map Prod.fst = range 4 ∧
      pieces 4 (expandInto [0x12, 0x34] [0, 0, 0, 0] 16 2) = (range 1).map fun j => replicate 2 0 ++
        beBytes 2 (ofDigits 2 (((inputBits [0x12, 0x34]).drop (16 * j)).take 16)) :=
  @expand_is_bit_slicing 16 2 [0x12, 0x34] [0, 0, 0, 0] (by decide) (by decide) (by decide) rfl

section

variable {cBitLen : Nat}

theorem indexPad_add (hle : cBitLen + 1 ≤ 25) : indexPad cBitLen + (cBitLen + 1 + 7) / 8 = 4 := by
  rw [indexPad]
  omega

theorem element_eq (hle : cBitLen + 1 ≤ 25) :
    element (cBitLen + 1) (indexPad cBitLen) = ehIndexToArray := by
  funext v
  rw [element, indexPad_add hle, ehIndexToArray]

theorem ehIndexToArray_length (i : Nat) : (ehIndexToArray i).length = 4 := beBytes_length 4 i

theorem arrayToEhIndex_ehIndexToArray (hle : cBitLen + 1 ≤ 25) (hi : i < 2 ^ (cBitLen + 1)) :
    arrayToEhIndex (ehIndexToArray i) = i := by
  rw [arrayToEhIndex, ehIndexToArray, beValue_beBytes]
  apply Nat.mod_eq_of_lt
  calc i < 2 ^ (cBitLen + 1) := hi
    _ ≤ 2 ^ 25 := Nat.pow_le_pow_right (by decide) hle
    _ ≤ 256 ^ 4 := by decide

theorem map_arrayToEhIndex (hle : cBitLen + 1 ≤ 25) {indices : List Nat}
    (h : ∀ i ∈ indices, i < 2 ^ (cBitLen + 1)) :
    (indices.map ehIndexToArray).map arrayToEhIndex = indices := by
  rw [map_map]
  conv_rhs => rw [← map_id indices]
  apply map_congr_left
  intro i hi
  rw [comp_apply, arrayToEhIndex_ehIndexToArray hle (h i hi), id]

theorem expandArray_indices (hge : 8 ≤ cBitLen + 1) (hle : cBitLen + 1 ≤ 25)
    (h : 8 * soln.length = (cBitLen + 1) * m) :
    expandArray soln (cBitLen + 1) (indexPad cBitLen) =
      (digits (2 ^ (cBitLen + 1)) m (beValue soln)).flatMap ehIndexToArray := by
  rw [← element_eq hle]
  exact expandArray_eq hge hle h

theorem getIndicesFromMinimal_eq_digits (hge : 8 ≤ cBitLen + 1) (hle : cBitLen + 1 ≤ 25) {soln : Bytes}
    {m : Nat} (h : 8 * soln.length = (cBitLen + 1) * m) :
    getIndicesFromMinimal soln cBitLen = digits (2 ^ (cBitLen + 1)) m (beValue soln) := by
  rw [getIndicesFromMinimal, expandArray_indices hge hle h,
    pieces_flatMap (by decide) _ ehIndexToArray_length,
    map_arrayToEhIndex hle (digits_lt (Nat.two_pow_pos _) _ _)]

theorem getMinimalFromIndices_eq_ofDigits (hge : 8 ≤ cBitLen + 1) (hle : cBitLen + 1 ≤ 25)
    (hwidth : 8 * width = (cBitLen + 1) * indices.length) (h : ∀ i ∈ indices, i < 2 ^ (cBitLen + 1)) :
    getMinimalFromIndices indices cBitLen =
      beBytes width (ofDigits (2 ^ (cBitLen + 1)) indices) := by
  have hout : (cBitLen + 1) * (indices.length * 4) / (8 * 4) = width := by
    rw [← mul_assoc, ← hwidth]
    omega
  rw [getMinimalFromIndices, hout, ← element_eq hle]
  exact compressArray_eq hge hle h hwidth

theorem byte_values (h : 8 * width = (cBitLen + 1) * m) :
    256 ^ width = (2 ^ (cBitLen + 1)) ^ m := by
  rw [show 256 = 2 ^ 8 from rfl, ← pow_mul, h, pow_mul]

theorem getIndices_getMinimal_of_width (hge : 8 ≤ cBitLen + 1) (hle : cBitLen + 1 ≤ 25)
    (hwidth : 8 * width = (cBitLen + 1) * indices.length) (h : ∀ i ∈ indices, i < 2 ^ (cBitLen + 1)) :
    getIndicesFromMinimal (getMinimalFromIndices indices cBitLen) cBitLen = indices := by
  have hminimal := getMinimalFromIndices_eq_ofDigits hge hle hwidth h
  rw [getIndicesFromMinimal_eq_digits hge hle (by rw [hminimal, beBytes_length, hwidth]), hminimal,
    beValue_beBytes, byte_values hwidth, Nat.mod_eq_of_lt (ofDigits_lt h), digits_ofDigits h]

theorem getMinimal_getIndices_of_width (hge : 8 ≤ cBitLen + 1) (hle : cBitLen + 1 ≤ 25)
    (h : 8 * soln.length = (cBitLen + 1) * m) :
    getMinimalFromIndices (getIndicesFromMinimal soln cBitLen) cBitLen = soln := by
  have hlt := beValue_lt soln
  rw [byte_values h] at hlt
  rw [getIndicesFromMinimal_eq_digits hge hle h,
    getMinimalFromIndices_eq_ofDigits hge hle (by rw [digits_length, h]) (digits_lt (Nat.two_pow_pos _) _ _),
    ofDigits_digits, Nat.mod_eq_of_lt hlt, beBytes_beValue]

end

section

variable (p : Params)

theorem bitLength_bounds : 8 ≤ p.collisionBitLength ∧ p.collisionBitLength ≤ 24 :=
  ⟨p.bitLength_ge, p.bitLength_le⟩

theorem indexBits_bounds : 8 ≤ p.collisionBitLength + 1 ∧ p.collisionBitLength + 1 ≤ 25 :=
  ⟨Nat.le_succ_of_le p.bitLength_ge, Nat.succ_le_succ p.bitLength_le⟩

theorem solutionWidth_bits : 8 * p.solutionWidth = (p.collisionBitLength + 1) * 2 ^ p.K := by
  have hdvd : 8 ∣ 2 ^ p.K * (p.collisionBitLength + 1) := p.width_dvd
  rw [Params.solutionWidth, Nat.mul_div_cancel' hdvd, mul_comm]

theorem getIndicesFromMinimal_eq (h : soln.length = p.solutionWidth) :
    getIndicesFromMinimal soln p.collisionBitLength =
      digits (2 ^ (p.collisionBitLength + 1)) (2 ^ p.K) (beValue soln) := by
  apply getIndicesFromMinimal_eq_digits (indexBits_bounds p).1 (indexBits_bounds p).2
  rw [h, solutionWidth_bits]

theorem getMinimalFromIndices_length (hlen : indices.length = 2 ^ p.K)
    (h : ∀ i ∈ indices, i < 2 ^ (p.collisionBitLength + 1)) :
    (getMinimalFromIndices indices p.collisionBitLength).length = p.solutionWidth := by
  rw [getMinimalFromIndices_eq_ofDigits (indexBits_bounds p).1 (indexBits_bounds p).2
    (by rw [hlen, solutionWidth_bits]) h, beBytes_length]

theorem getIndices_getMinimal (hlen : indices.length = 2 ^ p.K)
    (h : ∀ i ∈ indices, i < 2 ^ (p.collisionBitLength + 1)) :
    getIndicesFromMinimal (getMinimalFromIndices indices p.collisionBitLength)
      p.collisionBitLength = indices := by
  have hwidth : 8 * p.solutionWidth = (p.collisionBitLength + 1) * indices.length := by
    rw [hlen, solutionWidth_bits]
  exact getIndices_getMinimal_of_width (indexBits_bounds p).1 (indexBits_bounds p).2 hwidth h

theorem getIndicesFromMinimal_length (h : soln.length = p.solutionWidth) :
    (getIndicesFromMinimal soln p.collisionBitLength).length = 2 ^ p.K := by
  rw [getIndicesFromMinimal_eq p h, digits_length]

theorem getIndicesFromMinimal_lt (h : soln.length = p.solutionWidth) :
    ∀ i ∈ getIndicesFromMinimal soln p.collisionBitLength,
      i < 2 ^ (p.collisionBitLength + 1) := by
  rw [getIndicesFromMinimal_eq p h]
  exact digits_lt (Nat.two_pow_pos _) _ _

theorem getMinimal_getIndices (h : soln.length = p.solutionWidth) :
    getMinimalFromIndices (getIndicesFromMinimal soln p.collisionBitLength)
      p.collisionBitLength = soln := by
  apply getMinimal_getIndices_of_width (indexBits_bounds p).1 (indexBits_bounds p).2
  rw [h, solutionWidth_bits]

theorem N_eq : p.N = p.collisionBitLength * (p.K + 1) :=
  (Nat.div_mul_cancel p.succ_dvd).symm

theorem expandAsserts_hash :
    ExpandAsserts (p.N / 8) p.hashLength p.collisionBitLength 0 := by
  have hb := bitLength_bounds p
  refine ⟨hb.1, by omega, ?_⟩
  have hN : 8 * p.collisionByteLength * (p.N / 8) =
      p.collisionBitLength * ((p.K + 1) * p.collisionByteLength) := by
    calc 8 * p.collisionByteLength * (p.N / 8) = p.collisionByteLength * (8 * (p.N / 8)) := by ring
      _ = p.collisionByteLength * (p.collisionBitLength * (p.K + 1)) := by
        rw [Nat.mul_div_cancel' p.eight_dvd, ← N_eq]
      _ = _ := by ring
  rw [add_zero, ← Params.collisionByteLength, hN, Nat.mul_div_cancel_left _ (by omega),
    Params.hashLength]

theorem expandAsserts_indices :
    ExpandAsserts p.solutionWidth (4 * 2 ^ p.K) (p.collisionBitLength + 1)
      (indexPad p.collisionBitLength) := by
  have hb := bitLength_bounds p
  refine ⟨by omega, by omega, ?_⟩
  rw [add_comm ((p.collisionBitLength + 1 + 7) / 8), indexPad_add (indexBits_bounds p).2,
    show 8 * 4 * p.solutionWidth = 4 * (8 * p.solutionWidth) by ring, solutionWidth_bits,
    show 4 * ((p.collisionBitLength + 1) * 2 ^ p.K) =
      (p.collisionBitLength + 1) * (4 * 2 ^ p.K) by ring, Nat.mul_div_cancel_left _ (by omega)]

theorem compressAsserts_indices :
    CompressAsserts (4 * 2 ^ p.K) p.solutionWidth (p.collisionBitLength + 1)
      (indexPad p.collisionBitLength) := by
  have hb := bitLength_bounds p
  refine ⟨by omega, by omega, ?_⟩
  rw [add_comm ((p.collisionBitLength + 1 + 7) / 8), indexPad_add (indexBits_bounds p).2,
    show (p.collisionBitLength + 1) * (4 * 2 ^ p.K) =
      4 * ((p.collisionBitLength + 1) * 2 ^ p.K) by ring, ← solutionWidth_bits]
  omega

end

end Utsuite.EquihashCodec
