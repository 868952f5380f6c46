import Utsuite.Base58

namespace Utsuite.Base58Codec

open ByteWords RadixArray Base58 List

variable {vch psz : Bytes}

/-- The Base58 text of a byte string, whatever its length. It is the text of the same number, with
one character `1` for each leading zero byte. -/
def base58 (vch : Bytes) : Bytes := translate (recode 256 58 (vch.map UInt8.toNat))

/-- The byte strings for which the two `int` counters of `EncodeBase58` are large enough. -/
def Encodable (vch : Bytes) : Prop :=
  (vch.takeWhile fun c => c = 0).length < 2 ^ 31 ∧
    (vch.dropWhile fun c => c = 0).length * 138 / 100 + 1 < 2 ^ 31

theorem encodable_of_length (h : vch.length * 138 / 100 + 1 < 2 ^ 31) : Encodable vch := by
  have htake : (vch.takeWhile fun c => c = 0).length ≤ vch.length :=
    (takeWhile_sublist _).length_le
  have hdrop : (vch.dropWhile fun c => c = 0).length ≤ vch.length :=
    (dropWhile_sublist _).length_le
  constructor <;> omega

theorem toInt_of_lt (h : n < 2 ^ 31) : toInt n = n := by
  have hmod : n % 2 ^ 32 = n := Nat.mod_eq_of_lt (by omega)
  rw [toInt, hmod, if_pos h]

theorem toInt_of_nonneg (h : 0 ≤ toInt n) :
    (toInt n).toNat = n % 2 ^ 32 ∧ n % 2 ^ 32 < 2 ^ 31 := by
  rw [toInt] at h ⊢
  split_ifs at h ⊢ with hlt
  · exact ⟨Int.toNat_natCast _, hlt⟩
  · omega

theorem zeroes_toNat (vch : Bytes) :
    ((vch.map UInt8.toNat).takeWhile fun d => d = 0).length = (vch.takeWhile fun c => c = 0).length ∧
      ((vch.map UInt8.toNat).dropWhile fun d => d = 0) =
        (vch.dropWhile fun c => c = 0).map UInt8.toNat := by
  have hp : (fun d : Nat => decide (d = 0)) ∘ UInt8.toNat = fun c : UInt8 => decide (c = 0) := by
    funext c
    exact decide_eq_decide.mpr (UInt8.toNat_inj (b := 0))
  rw [takeWhile_map, dropWhile_map, hp, length_map]
  exact ⟨rfl, rfl⟩

theorem base58_eq (h : convert 58 256 ((vch.dropWhile fun c => c = 0).map UInt8.toNat)
      (replicate size 0) = some out) :
    base58 vch = replicate (vch.takeWhile fun c => c = 0).length 0x31 ++
      translate (significant out) := by
  obtain ⟨htake, hdrop⟩ := zeroes_toNat vch
  rw [← hdrop] at h
  rw [base58, recode_eq (by norm_num) h, htake, Base58.translate, map_append, map_replicate]
  rfl

theorem encodeBase58_eq (h : Encodable vch) : encodeBase58 vch = .ok (base58 vch) := by
  obtain ⟨hzeroes, hsize⟩ := h
  have hroom : 256 ^ ((vch.dropWhile fun c => c = 0).map UInt8.toNat).length ≤
      58 ^ ((vch.dropWhile fun c => c = 0).length * 138 / 100 + 1) := by
    rw [length_map]
    exact encode_room _
  obtain ⟨out, hout⟩ := convert_zeroes_isSome toNat_lt hroom
  have hloop := encodeLoop_zeroes (vch.dropWhile fun c => c = 0)
    ((vch.dropWhile fun c => c = 0).length * 138 / 100 + 1)
  rw [hout] at hloop
  obtain ⟨r, hr, hsig⟩ := Option.map_eq_some_iff.mp hloop
  simp only [encodeBase58, toInt_of_lt hsize, Int.toNat_natCast]
  rw [if_neg (by omega), if_neg (by omega), hr, base58_eq hout, ← hsig]

theorem convert_short (hhead : vch.head? = some c) (hc : c ≠ 0) (hsize : size < vch.length) :
    convert 58 256 (vch.map UInt8.toNat) (replicate size 0) = none := by
  refine Option.eq_none_iff_forall_not_mem.mpr fun out hout => ?_
  obtain ⟨hlt, hlength, hv⟩ := convert_zeroes (by norm_num) hout
  obtain ⟨rest, rfl⟩ := head?_eq_some_iff.mp hhead
  have hpos : 0 < c.toNat := Nat.pos_of_ne_zero fun h0 => hc (UInt8.toNat_inj.mp h0)
  have hbound := Nat.ofDigits_lt_base_pow_length (by norm_num) hlt
  rw [hlength, hv, map_cons, Nat.ofDigits_reverse_cons, length_map] at hbound
  have hpow : 58 ^ size ≤ 256 ^ rest.length :=
    (Nat.pow_le_pow_left (by norm_num) size).trans
      (Nat.pow_le_pow_right (by norm_num) (Nat.le_of_lt_succ hsize))
  have hmul := Nat.le_mul_of_pos_right (256 ^ rest.length) hpos
  omega

theorem encodable_of_ok (h : encodeBase58 vch = .ok str) : Encodable vch := by
  rw [encodeBase58] at h
  split_ifs at h with hzeroes hnegative
  refine ⟨not_le.mp hzeroes, not_le.mp fun hlarge => ?_⟩
  generalize hrest : (vch.dropWhile fun c => c = 0) = rest at h hnegative hlarge
  have hwrap : (toInt (rest.length * 138 / 100 + 1)).toNat < rest.length := by
    have hpos := toInt_of_nonneg (not_lt.mp hnegative)
    have hturn : 2 ^ 32 ≤ rest.length * 138 / 100 + 1 := by omega
    omega
  cases hhead : rest.head? with
  | none =>
    rw [head?_eq_none_iff] at hhead
    rw [hhead] at hwrap
    exact Nat.not_lt_zero _ hwrap
  | some c =>
    have hc : c ≠ 0 := by
      have hnot := head?_dropWhile_not (fun c => decide (c = 0)) vch
      rw [hrest, hhead] at hnot
      exact of_decide_eq_false hnot
    have hloop := encodeLoop_zeroes rest (toInt (rest.length * 138 / 100 + 1)).toNat
    rw [convert_short hhead hc hwrap, Option.map_none, Option.map_eq_none_iff] at hloop
    rw [hloop] at h
    cases h

theorem encodeBase58_ok_iff : encodeBase58 vch = .ok str ↔ Encodable vch ∧ str = base58 vch := by
  constructor
  · intro h
    have hfits := encodable_of_ok h
    rw [encodeBase58_eq hfits] at h
    cases h
    exact ⟨hfits, rfl⟩
  · rintro ⟨hfits, rfl⟩
    exact encodeBase58_eq hfits

theorem mem_of_idxOf? (h : pszBase58.idxOf? c = some ch) : ch < 58 ∧ pszBase58.getD ch 0 = c := by
  obtain ⟨hlt, hget, -⟩ := idxOf?_eq_some_iff.mp h
  refine ⟨hlt, ?_⟩
  rw [getD_eq_getElem?_getD, getElem?_eq_getElem hlt]
  exact hget

theorem decodeLoop_ok (h : decodeLoop psz b256 = .ok (out, rest)) :
    ∃ ds, (∀ d ∈ ds, d < 58) ∧ psz = translate ds ++ rest ∧
      convert 256 58 ds b256 = some out := by
  induction psz generalizing b256 with
  | nil =>
    cases h
    exact ⟨[], nofun, rfl, rfl⟩
  | cons c psz ih =>
    rw [decodeLoop] at h
    by_cases hspace : isspace c = true
    · rw [if_pos hspace] at h
      cases h
      exact ⟨[], nofun, rfl, rfl⟩
    · rw [if_neg hspace] at h
      cases hch : pszBase58.idxOf? c with
      | none =>
        rw [hch] at h
        cases h
      | some ch =>
        rw [hch] at h
        dsimp only at h
        split_ifs at h with hcarry
        obtain ⟨ds, hlt, rfl, hout⟩ := ih h
        obtain ⟨hd, hget⟩ := mem_of_idxOf? hch
        refine ⟨ch :: ds, forall_mem_cons.mpr ⟨hd, hlt⟩, ?_, ?_⟩
        · change _ = pszBase58.getD ch 0 :: (translate ds ++ rest)
          rw [hget]
        · rw [convert, if_pos hcarry, hout]

theorem decodeLoop_append (hlt : ∀ d ∈ ds, d < 58) (hrest : ∀ c ∈ rest, isspace c = true)
    (h : convert 256 58 ds b256 = some out) :
    decodeLoop (translate ds ++ rest) b256 = .ok (out, rest) := by
  induction ds generalizing b256 with
  | nil =>
    obtain rfl := Option.some.inj h
    cases rest with
    | nil => rfl
    | cons c rest =>
      change decodeLoop (c :: rest) b256 = _
      rw [decodeLoop, if_pos (hrest c mem_cons_self)]
  | cons d ds ih =>
    obtain ⟨hd, hlt⟩ := List.forall_mem_cons.mp hlt
    rw [convert] at h
    split_ifs at h with hcarry
    change decodeLoop (pszBase58.getD d 0 :: (translate ds ++ rest)) b256 = _
    simp only [decodeLoop, isspace_char d hd, idxOf_char d hd, hcarry, Bool.false_eq_true,
      if_false, if_true]
    exact ih hlt h

theorem exists_translate (h : ∀ c ∈ word, c ∈ pszBase58) :
    ∃ ds, (∀ d ∈ ds, d < 58) ∧ word = translate ds := by
  induction word with
  | nil => exact ⟨[], nofun, rfl⟩
  | cons c word ih =>
    obtain ⟨hc, hword⟩ := forall_mem_cons.mp h
    obtain ⟨ds, hlt, rfl⟩ := ih hword
    obtain ⟨d, hd, hget⟩ := mem_iff_getElem.mp hc
    refine ⟨d :: ds, forall_mem_cons.mpr ⟨hd, hlt⟩, ?_⟩
    change _ = pszBase58.getD d 0 :: translate ds
    rw [getD_eq_getElem?_getD, getElem?_eq_getElem hd, Option.getD_some, hget]

theorem translate_zeroes (hlt : ∀ d ∈ ds, d < 58) (hrest : ∀ c ∈ rest, isspace c = true) :
    ((translate ds ++ rest).takeWhile fun c => c = 0x31) =
        replicate (ds.takeWhile fun d => d = 0).length 0x31 ∧
      ((translate ds ++ rest).dropWhile fun c => c = 0x31) =
        translate (ds.dropWhile fun d => d = 0) ++ rest := by
  induction ds with
  | nil =>
    cases rest with
    | nil => exact ⟨rfl, rfl⟩
    | cons c rest =>
      have hne : c ≠ 0x31 := by
        rintro rfl
        exact absurd (hrest _ mem_cons_self) (by decide)
      change ((c :: rest).takeWhile _) = _ ∧ ((c :: rest).dropWhile _) = _
      rw [takeWhile_cons, dropWhile_cons, decide_eq_false hne]
      exact ⟨rfl, rfl⟩
  | cons d ds ih =>
    obtain ⟨hd, hlt⟩ := forall_mem_cons.mp hlt
    change ((pszBase58.getD d 0 :: (translate ds ++ rest)).takeWhile _) = _ ∧
      ((pszBase58.getD d 0 :: (translate ds ++ rest)).dropWhile _) = _
    rw [takeWhile_cons, dropWhile_cons, takeWhile_cons, dropWhile_cons]
    by_cases hzero : d = 0
    · obtain ⟨htake, hdrop⟩ := ih hlt
      subst hzero
      exact ⟨congrArg (_ :: ·) htake, hdrop⟩
    · have hne : pszBase58.getD d 0 ≠ 0x31 := fun heq => hzero (char_eq_one d hd heq)
      rw [decide_eq_false hne, decide_eq_false hzero]
      exact ⟨rfl, rfl⟩

theorem dropWhile_spaces (hlt : ∀ d ∈ ds, d < 58) (hlead : ∀ c ∈ lead, isspace c = true)
    (hrest : ∀ c ∈ rest, isspace c = true) :
    ∃ trail, (∀ c ∈ trail, isspace c = true) ∧
      (lead ++ (translate ds ++ rest)).dropWhile isspace = translate ds ++ trail := by
  rw [dropWhile_append_of_pos hlead]
  cases ds with
  | nil => exact ⟨[], nofun, dropWhile_eq_nil_iff.mpr hrest⟩
  | cons d ds =>
    refine ⟨rest, hrest, ?_⟩
    change (pszBase58.getD d 0 :: (translate ds ++ rest)).dropWhile isspace = _
    rw [dropWhile_cons, isspace_char d (hlt d mem_cons_self)]
    rfl

theorem map_toNat_ofNat {w : List Nat} (hlt : ∀ d ∈ w, d < 256) :
    (w.map .ofNat).map UInt8.toNat = w := by
  rw [map_map]
  refine (map_congr_left fun d hd => ?_).trans (map_id w)
  exact UInt8.toNat_ofNat_of_lt (hlt d hd)

theorem map_ofNat_toNat (vch : Bytes) : (vch.map UInt8.toNat).map .ofNat = vch := by
  rw [map_map]
  exact (map_congr_left fun c _ => UInt8.ofNat_toNat).trans (map_id vch)

theorem decodeBase58_translate (hlt : ∀ d ∈ ds, d < 58) (hlead : ∀ c ∈ lead, isspace c = true)
    (hrest : ∀ c ∈ rest, isspace c = true) (hzeroes : (ds.takeWhile fun d => d = 0).length < 2 ^ 31) :
    decodeBase58 (lead ++ (translate ds ++ rest)) = .ok ((recode 58 256 ds).map .ofNat) := by
  obtain ⟨trail, htrail, hdrop⟩ := dropWhile_spaces hlt hlead hrest
  obtain ⟨hones, hdigits⟩ := translate_zeroes hlt htrail
  have hlt' : ∀ d ∈ ds.dropWhile fun d => d = 0, d < 58 := fun d hd =>
    hlt d ((dropWhile_sublist _).subset hd)
  have hlength : (ds.dropWhile fun d => d = 0).length ≤
      (translate (ds.dropWhile fun d => d = 0) ++ trail).length := by
    rw [length_append, Base58.translate, length_map]
    exact Nat.le_add_right _ _
  obtain ⟨out, hout⟩ := convert_zeroes_isSome hlt'
    ((Nat.pow_le_pow_right (by norm_num) hlength).trans (decode_room _))
  rw [decodeBase58, hdrop, hones, hdigits, length_replicate, if_neg (not_le.mpr hzeroes),
    decodeLoop_append hlt' htrail hout, recode_eq (by norm_num) hout, map_append, map_replicate]
  exact if_neg fun hne => hne (dropWhile_eq_nil_iff.mpr htrail)

theorem exists_digits (h : decodeBase58 psz = .ok vch) :
    ∃ lead ds rest, (∀ c ∈ lead, isspace c = true) ∧ (∀ d ∈ ds, d < 58) ∧
      (∀ c ∈ rest, isspace c = true) ∧ psz = lead ++ (translate ds ++ rest) := by
  rw [decodeBase58] at h
  split_ifs at h
  split at h
  · cases h
  case h_2 b256 rest hloop =>
    split_ifs at h with hrest
    obtain ⟨ds, hlt, hword, -⟩ := decodeLoop_ok hloop
    have hones : ∀ c ∈ (psz.dropWhile isspace).takeWhile (fun c => c = 0x31), c ∈ pszBase58 := by
      intro c hc
      have hp := mem_takeWhile_imp hc
      rw [of_decide_eq_true hp]
      decide
    obtain ⟨zs, hzs, hzeroes⟩ := exists_translate hones
    refine ⟨psz.takeWhile isspace, zs ++ ds, rest, fun c hc => mem_takeWhile_imp hc,
      forall_mem_append.mpr ⟨hzs, hlt⟩, dropWhile_eq_nil_iff.mp (not_not.mp hrest), ?_⟩
    have happend : translate (zs ++ ds) = translate zs ++ translate ds := map_append
    rw [happend, ← hzeroes, append_assoc, ← hword, takeWhile_append_dropWhile,
      takeWhile_append_dropWhile]

theorem zeroes_of_decodeBase58 (hlt : ∀ d ∈ ds, d < 58) (hlead : ∀ c ∈ lead, isspace c = true)
    (hrest : ∀ c ∈ rest, isspace c = true)
    (h : decodeBase58 (lead ++ (translate ds ++ rest)) = .ok vch) :
    (ds.takeWhile fun d => d = 0).length < 2 ^ 31 := by
  obtain ⟨trail, htrail, hdrop⟩ := dropWhile_spaces hlt hlead hrest
  obtain ⟨hones, -⟩ := translate_zeroes hlt htrail
  refine not_le.mp fun hmany => ?_
  rw [decodeBase58, hdrop, hones, length_replicate, if_pos hmany] at h
  cases h

theorem base58_recode (hlt : ∀ d ∈ ds, d < 58) :
    base58 ((recode 58 256 ds).map .ofNat) = translate ds := by
  rw [base58, map_toNat_ofNat (recode_lt (by norm_num)), recode_recode (by norm_num) hlt]

theorem base58_alphabet (vch : Bytes) : ∀ c ∈ base58 vch, c ∈ pszBase58 :=
  fun _ hc => mem_translate (recode_lt (by norm_num)) hc

theorem ones_base58 (vch : Bytes) :
    ((base58 vch).takeWhile fun c => c = 0x31).length = (vch.takeWhile fun c => c = 0).length := by
  obtain ⟨hones, -⟩ := translate_zeroes (recode_lt (by norm_num)) (forall_mem_nil _)
  rw [append_nil] at hones
  rw [base58, hones, length_replicate, recode_zeroes, (zeroes_toNat vch).1]

theorem exists_base58 (h : ∀ c ∈ word, c ∈ pszBase58) : ∃ vch, base58 vch = word := by
  obtain ⟨ds, hlt, rfl⟩ := exists_translate h
  exact ⟨_, base58_recode hlt⟩

/-- Exactly what `DecodeBase58` accepts for a byte string: its Base58 text, with white space around
it, as long as the `int` can count its leading ones. -/
theorem decodeBase58_ok_iff :
    decodeBase58 psz = .ok vch ↔ (vch.takeWhile fun c => c = 0).length < 2 ^ 31 ∧
      ∃ lead rest, (∀ c ∈ lead, isspace c = true) ∧ (∀ c ∈ rest, isspace c = true) ∧
        psz = lead ++ (base58 vch ++ rest) := by
  constructor
  · intro h
    obtain ⟨lead, ds, rest, hlead, hlt, hrest, rfl⟩ := exists_digits h
    have hzeroes := zeroes_of_decodeBase58 hlt hlead hrest h
    rw [decodeBase58_translate hlt hlead hrest hzeroes] at h
    cases h
    refine ⟨?_, lead, rest, hlead, hrest, by rw [base58_recode hlt]⟩
    rwa [← (zeroes_toNat _).1, map_toNat_ofNat (recode_lt (by norm_num)), recode_zeroes]
  · rintro ⟨hzeroes, lead, rest, hlead, hrest, rfl⟩
    rw [base58, decodeBase58_translate (recode_lt (by norm_num)) hlead hrest,
      recode_recode (by norm_num) toNat_lt, map_ofNat_toNat]
    rwa [recode_zeroes, (zeroes_toNat vch).1]

theorem decodeBase58_base58 (h : (vch.takeWhile fun c => c = 0).length < 2 ^ 31) :
    decodeBase58 (base58 vch) = .ok vch :=
  decodeBase58_ok_iff.mpr ⟨h, [], [], forall_mem_nil _, forall_mem_nil _, (append_nil _).symm⟩

theorem eq_nil_of_no_space (hpart : ∀ c ∈ part, isspace c = true) (hsub : part ⊆ psz)
    (hspace : ∀ c ∈ psz, isspace c = false) : part = [] := by
  refine eq_nil_iff_forall_not_mem.mpr fun c hc => ?_
  exact absurd (hpart c hc) (Bool.eq_false_iff.mp (hspace c (hsub hc)))

theorem cString_of_alphabet (h : ∀ c ∈ str, c ∈ pszBase58) : cString str = str := by
  rw [cString, takeWhile_eq_self_iff]
  exact fun c hc => decide_eq_true (not_special c (h c hc)).1

theorem checksum_length (hash : Hash256) (vch : Bytes) : ((hash vch).val.take 4).length = 4 := by
  rw [length_take, (hash vch).property]
  rfl

theorem decode_encodeBase58Check (hash : Hash256) (vch : Bytes)
    (hsize : (vch.length + 4) * 138 / 100 + 1 < 2 ^ 31) :
    ∃ str, encodeBase58Check hash vch = .ok str ∧ decodeBase58Check hash str = .ok vch ∧
      ∀ c ∈ str, c ∈ pszBase58 := by
  have hlen : (vch ++ (hash vch).val.take 4).length = vch.length + 4 := by
    rw [length_append, checksum_length]
  have hfits : Encodable (vch ++ (hash vch).val.take 4) :=
    encodable_of_length (by rw [hlen]; exact hsize)
  refine ⟨_, encodeBase58_eq hfits, ?_, base58_alphabet _⟩
  rw [decodeBase58Check, cString_of_alphabet (base58_alphabet _), decodeBase58_base58 hfits.1]
  dsimp only
  rw [hlen, Nat.add_sub_cancel, if_neg (by omega), take_left, drop_left,
    if_neg (fun hne => hne rfl)]

theorem encode_decodeBase58Check {hash : Hash256} {str : Bytes}
    (h : decodeBase58Check hash str = .ok vch) (hsize : (vch.length + 4) * 138 / 100 + 1 < 2 ^ 31) :
    ∃ lead word rest, cString str = lead ++ (word ++ rest) ∧ (∀ c ∈ lead, isspace c = true) ∧
      (∀ c ∈ word, c ∈ pszBase58) ∧ (∀ c ∈ rest, isspace c = true) ∧
      encodeBase58Check hash vch = .ok word := by
  rw [decodeBase58Check] at h
  split at h
  · cases h
  · next vchRet hdecode =>
      dsimp only at h
      split_ifs at h with hshort hsum
      cases h
      rw [length_take, min_eq_left (Nat.sub_le _ _)] at hsize
      obtain ⟨-, lead, rest, hlead, hrest, hstr⟩ := decodeBase58_ok_iff.mp hdecode
      refine ⟨lead, base58 vchRet, rest, hstr, hlead, base58_alphabet _, hrest, ?_⟩
      rw [encodeBase58Check, not_not.mp hsum, take_append_drop]
      exact encodeBase58_eq (encodable_of_length (by omega))

theorem setString_toString (hash : Hash256) (version : UInt8) (vchData : Bytes)
    (hsize : (vchData.length + 5) * 138 / 100 + 1 < 2 ^ 31) :
    ∃ str, CBase58Data.toString hash ⟨[version], vchData⟩ = .ok str ∧
      CBase58Data.setString hash str = .ok ⟨[version], vchData⟩ ∧ ∀ c ∈ str, c ∈ pszBase58 := by
  obtain ⟨str, hencode, hdecode, halphabet⟩ :=
    decode_encodeBase58Check hash (version :: vchData) hsize
  refine ⟨str, hencode, ?_, halphabet⟩
  rw [CBase58Data.setString, hdecode]

/-- The two functions undo each other. The bounds are those of the `int` counters and are exact:
`EncodeBase58` gives a text for the byte strings that are `Encodable` and for no other ones, and
`DecodeBase58` accepts the texts over the alphabet, with white space around them, whose leading
ones it can count. -/
theorem base58_bijection :
    (∀ vch : Bytes, Encodable vch →
      ∃ str, encodeBase58 vch = .ok str ∧ decodeBase58 str = .ok vch) ∧
    (∀ vch str : Bytes, encodeBase58 vch = .ok str → Encodable vch) ∧
    (∀ psz vch : Bytes, (∀ c ∈ psz, isspace c = false) → decodeBase58 psz = .ok vch →
      (encodeBase58 vch = .ok psz ↔
        (vch.dropWhile fun c => c = 0).length * 138 / 100 + 1 < 2 ^ 31)) ∧
    (∀ psz : Bytes, (∃ vch, decodeBase58 psz = .ok vch) ↔
      ∃ lead word rest, psz = lead ++ (word ++ rest) ∧ (∀ c ∈ lead, isspace c = true) ∧
        (∀ c ∈ word, c ∈ pszBase58) ∧ (∀ c ∈ rest, isspace c = true) ∧
        (word.takeWhile fun c => c = 0x31).length < 2 ^ 31) ∧
    (∀ psz : Bytes, decodeBase58 psz ≠ .error .assertion) := by
  refine ⟨fun vch h => ?_, fun vch str => encodable_of_ok, fun psz vch hspace h => ?_,
    fun psz => ⟨?_, ?_⟩, decodeBase58_no_assertion⟩
  · exact ⟨_, encodeBase58_eq h, decodeBase58_base58 h.1⟩
  · obtain ⟨hzeroes, lead, rest, hlead, hrest, hpsz⟩ := decodeBase58_ok_iff.mp h
    have hlead' := eq_nil_of_no_space hlead (hpsz ▸ subset_append_left _ _) hspace
    have hrest' := eq_nil_of_no_space hrest (hpsz ▸ fun c hc =>
      mem_append_right _ (mem_append_right _ hc)) hspace
    rw [hlead', hrest', append_nil, nil_append] at hpsz
    rw [encodeBase58_ok_iff]
    exact ⟨fun hok => hok.1.2, fun hsize => ⟨⟨hzeroes, hsize⟩, hpsz⟩⟩
  · rintro ⟨vch, h⟩
    obtain ⟨hzeroes, lead, rest, hlead, hrest, hpsz⟩ := decodeBase58_ok_iff.mp h
    exact ⟨lead, _, rest, hpsz, hlead, base58_alphabet vch, hrest, by rwa [ones_base58]⟩
  · rintro ⟨lead, word, rest, rfl, hlead, hword, hrest, hones⟩
    obtain ⟨vch, rfl⟩ := exists_base58 hword
    rw [ones_base58] at hones
    exact ⟨vch, decodeBase58_ok_iff.mpr ⟨hones, lead, rest, hlead, hrest, rfl⟩⟩

theorem base58_bijection_abc :
    (∃ str, encodeBase58 [0, 97, 98, 99] = .ok str ∧ decodeBase58 str = .ok [0, 97, 98, 99]) ∧
    encodeBase58 [0, 57] = .ok [0x31, 0x7a] ∧
    ∃ vch, decodeBase58 [0x20, 0x31, 0x7a, 0x0a] = .ok vch := by
  obtain ⟨hencode, -, hdecode, haccept, -⟩ := base58_bijection
  refine ⟨hencode _ ?_, (hdecode _ _ ?_ rfl).mpr ?_, (haccept _).mpr ?_⟩
  · constructor <;> decide +kernel
  · decide +kernel
  · decide +kernel
  · refine ⟨[0x20], [0x31, 0x7a], [0x0a], rfl, ?_, ?_, ?_, ?_⟩ <;> decide +kernel

/-- A string of `2 ^ 31` bytes that are not zero has no text, because the size of `b58` does not fit
in an `int`. -/
theorem encodeBase58_too_long : ∃ vch, ∀ str, encodeBase58 vch ≠ .ok str := by
  refine ⟨replicate (2 ^ 31) 1, fun str hstr => ?_⟩
  have hlength : (replicate (2 ^ 31) (1 : UInt8)).length = 2 ^ 31 := length_replicate
  have hone : ∀ c ∈ replicate (2 ^ 31) (1 : UInt8), c = 1 :=
    fun c hc => eq_of_mem_replicate hc
  generalize replicate (2 ^ 31) (1 : UInt8) = vch at hlength hone hstr
  have hdrop : (vch.dropWhile fun c => c = 0) = vch := by
    refine dropWhile_eq_self_iff.mpr fun hpos => ?_
    rw [hone _ (getElem_mem hpos)]
    decide
  have hsize := (encodable_of_ok hstr).2
  rw [hdrop, hlength] at hsize
  exact absurd hsize (by decide)

end Utsuite.Base58Codec
