import Mathlib.Data.Nat.Log
import Utsuite.Base58
import Utsuite.BitPack
import Utsuite.Compressor

namespace Utsuite.DecimalText

open ByteWords List
open Base58 (cString isspace)
open BitPack (digits digits_length)
open Compressor (COIN)

section

def isdigit (c : UInt8) : Bool := 0x30 ≤ c && c ≤ 0x39

def digit (c : UInt8) : Nat := (c - 0x30).toNat

def decimalValue : Bytes → Nat
  | [] => 0
  | c :: s => digit c * 10 ^ s.length + decimalValue s

theorem decimalValue_append (s t : Bytes) :
    decimalValue (s ++ t) = decimalValue s * 10 ^ t.length + decimalValue t := by
  induction s with
  | nil => simp [decimalValue]
  | cons c s ih =>
    rw [cons_append, decimalValue, decimalValue, ih, length_append, Nat.pow_add]
    ring

theorem decimalValue_zeros (n : Nat) : decimalValue (replicate n 0x30) = 0 := by
  induction n with
  | zero => rfl
  | succ n ih => simp [replicate_succ, decimalValue, ih, digit]

end

section

def printDecimal (width n : Nat) : Bytes :=
  (digits 10 (max width (Nat.log 10 n + 1)) n).map fun d => .ofNat (0x30 + d)

def trimZeros : Bytes → Bytes
  | c :: d :: e :: s => if c = 0x30 ∧ isdigit e then trimZeros (d :: e :: s) else c :: d :: e :: s
  | s => s

def formatMoney (n : Int) : Bytes :=
  let n_abs := n.natAbs
  let str := printDecimal 1 (n_abs / COIN) ++ 0x2e :: printDecimal 8 (n_abs % COIN)
  let str := (trimZeros str.reverse).reverse
  if n < 0 then 0x2d :: str else str

def CENT : Nat := 1000000

def parseFraction : Bytes → Nat → Nat → Nat × Bytes
  | c :: p, nMult, nUnits =>
    if isdigit c ∧ nMult > 0 then parseFraction p (nMult / 10) (nUnits + nMult * digit c)
    else (nUnits, c :: p)
  | [], _, nUnits => (nUnits, [])

def parseWhole : Bytes → Bytes → Option (Bytes × Nat × Bytes)
  | [], strWhole => some (strWhole, 0, [])
  | c :: p, strWhole =>
    if c = 0x2e then some (strWhole, parseFraction p (CENT * 10) 0)
    else if isspace c then some (strWhole, 0, c :: p)
    else if ¬isdigit c then none
    else parseWhole p (strWhole ++ [c])

def parseMoney (str : Bytes) : Option Nat := do
  let (strWhole, nUnits, p) ← parseWhole ((cString str).dropWhile isspace) []
  if ¬p.all isspace ∨ strWhole.length > 10 ∨ nUnits > COIN then none
  else some (decimalValue strWhole * COIN + nUnits)

structure MoneyText (str : Bytes) (nRet : Nat) (whole point frac : Bytes) : Prop where
  shape : ∃ lead rest, str = lead ++ (whole ++ (point ++ (frac ++ rest))) ∧
    lead.all isspace ∧ rest.all isspace
  whole_digits : whole.all isdigit
  frac_digits : frac.all isdigit
  whole_le : whole.length ≤ 10
  frac_le : frac.length ≤ 8
  point_eq : point = [0x2e] ∨ point = [] ∧ frac = []
  value_eq : nRet * 10 ^ frac.length = decimalValue (whole ++ frac) * 10 ^ 8

theorem digit_ofNat (h : d < 10) :
    isdigit (.ofNat (0x30 + d)) = true ∧ digit (.ofNat (0x30 + d)) = d := by
  decide +revert

theorem digits_text (m n : Nat) :
    let s : Bytes := (digits 10 m n).map fun d => .ofNat (0x30 + d)
    s.length = m ∧ s.all isdigit ∧ decimalValue s = n % 10 ^ m := by
  induction m generalizing n with
  | zero => simp [digits, decimalValue, Nat.mod_one]
  | succ m ih =>
    obtain ⟨hlen, hall, hvalue⟩ := ih (n / 10)
    obtain ⟨hdigit, heq⟩ := digit_ofNat (Nat.mod_lt n (by decide : 0 < 10))
    refine ⟨by simp, ?_, ?_⟩
    · rw [digits, map_append, all_append, hall, map_singleton, all_cons, hdigit]
      rfl
    · rw [digits, map_append, decimalValue_append, hvalue, map_singleton, Nat.pow_succ', Nat.mod_mul]
      simp only [decimalValue, heq, length_cons, length_nil]
      ring

theorem printDecimal_spec {width n k : Nat} (hn : n < 10 ^ k) (hk : width ≤ k) (hpos : 0 < k) :
    width ≤ (printDecimal width n).length ∧ (printDecimal width n).length ≤ k ∧
      (printDecimal width n).all isdigit ∧ decimalValue (printDecimal width n) = n := by
  obtain ⟨hlen, hall, hvalue⟩ := digits_text (max width (Nat.log 10 n + 1)) n
  have hlog : Nat.log 10 n < k := Nat.log_lt_of_lt_pow' (by omega) hn
  have hfit : n < 10 ^ max width (Nat.log 10 n + 1) := by
    apply lt_of_lt_of_le (Nat.lt_pow_succ_log_self (by decide : 1 < 10) n)
    exact Nat.pow_le_pow_right (by decide) (le_max_right _ _)
  rw [Nat.mod_eq_of_lt hfit] at hvalue
  exact ⟨by rw [printDecimal, hlen]; omega, by rw [printDecimal, hlen]; omega, hall, hvalue⟩

theorem trimZeros_cons (c : UInt8) (s : Bytes) :
    c = 0x30 ∧ trimZeros (c :: s) = trimZeros s ∨ trimZeros (c :: s) = c :: s := by
  match s with
  | [] | [_] => exact .inr rfl
  | d :: e :: s =>
    rw [trimZeros]
    split_ifs with h
    · exact .inl ⟨h.1, rfl⟩
    · exact .inr rfl

theorem trimZeros_spec (r s : Bytes) :
    ∃ n r', r = replicate n 0x30 ++ r' ∧ trimZeros (r ++ 0x2e :: s) = r' ++ 0x2e :: s := by
  induction r with
  | nil =>
    obtain ⟨h, -⟩ | h := trimZeros_cons 0x2e s
    · cases h
    · exact ⟨0, [], rfl, h⟩
  | cons c r ih =>
    obtain ⟨n, r', hr, htrim⟩ := ih
    obtain ⟨rfl, h⟩ | h := trimZeros_cons c (r ++ 0x2e :: s)
    · exact ⟨n + 1, r', by rw [hr, replicate_succ, cons_append], h.trans htrim⟩
    · exact ⟨0, c :: r, rfl, h⟩

theorem parseFraction_spec (p : Bytes) (k nUnits : Nat) :
    ∃ frac rest, p = frac ++ rest ∧ frac.all isdigit ∧ frac.length ≤ k ∧
      (rest.all isdigit → rest = [] ∨ frac.length = k) ∧
      parseFraction p (10 ^ k / 10) nUnits =
        (nUnits + decimalValue frac * 10 ^ (k - frac.length), rest) := by
  induction p generalizing k nUnits with
  | nil => exact ⟨[], [], rfl, rfl, Nat.zero_le _, fun _ => .inl rfl, by simp [parseFraction, decimalValue]⟩
  | cons c p ih =>
    rw [parseFraction]
    split_ifs with h
    · cases k with
      | zero => exact absurd h.2 (by decide)
      | succ k =>
        have hmult : 10 ^ (k + 1) / 10 = 10 ^ k := by rw [Nat.pow_succ, Nat.mul_div_cancel _ (by decide)]
        rw [hmult]
        obtain ⟨frac, rest, rfl, hdigits, hle, hend, hparse⟩ := ih k (nUnits + 10 ^ k * digit c)
        refine ⟨c :: frac, rest, rfl, by rw [all_cons, h.1, hdigits]; rfl, Nat.succ_le_succ hle, ?_, ?_⟩
        · exact fun h => (hend h).imp_right (congrArg (· + 1))
        · rw [hparse, decimalValue, length_cons, Nat.add_sub_add_right, Nat.add_mul, Nat.mul_assoc,
            ← Nat.pow_add, Nat.add_sub_cancel' hle, Nat.mul_comm (digit c), Nat.add_assoc]
    · refine ⟨[], c :: p, rfl, rfl, Nat.zero_le _, fun hall => .inr ?_, by simp [decimalValue]⟩
      rw [all_cons, Bool.and_eq_true] at hall
      have hzero : ¬10 ^ k / 10 > 0 := fun hpos => h ⟨hall.1, hpos⟩
      cases k with
      | zero => rfl
      | succ k =>
        rw [Nat.pow_succ, Nat.mul_div_cancel _ (by decide)] at hzero
        exact absurd (Nat.pow_pos (by decide)) hzero

theorem digit_other (h : isdigit c = true) : c ≠ 0x2e ∧ isspace c = false := by
  revert h
  exact byte_cases (p := fun c => isdigit c = true → c ≠ 0x2e ∧ isspace c = false)
    (by decide +kernel) c

theorem parseWhole_digits (whole p strWhole : Bytes) (h : whole.all isdigit) :
    parseWhole (whole ++ p) strWhole = parseWhole p (strWhole ++ whole) := by
  induction whole generalizing strWhole with
  | nil => rw [append_nil, nil_append]
  | cons c whole ih =>
    rw [all_cons, Bool.and_eq_true] at h
    obtain ⟨hpoint, hspace⟩ := digit_other h.1
    rw [cons_append, parseWhole, if_neg hpoint, hspace, h.1, ih _ h.2, append_assoc]
    rfl

theorem formatMoney_shape {n : Nat} (hn : n < 10 ^ 18) :
    ∃ whole frac, formatMoney n = whole ++ 0x2e :: frac ∧ whole.all isdigit ∧ frac.all isdigit ∧
      whole ≠ [] ∧ whole.length ≤ 10 ∧ frac.length ≤ 8 ∧ decimalValue whole = n / COIN ∧
      decimalValue frac * 10 ^ (8 - frac.length) = n % COIN := by
  obtain ⟨hpos, hwlen, hwdigits, hwhole⟩ :=
    @printDecimal_spec 1 (n / COIN) 10 (by rw [COIN]; omega) (by decide) (by decide)
  obtain ⟨hge, hle, hdigits, hvalue⟩ :=
    @printDecimal_spec 8 (n % COIN) 8 (Nat.mod_lt n (by decide)) (by decide) (by decide)
  obtain ⟨j, frac, hfrac, htrim⟩ :=
    trimZeros_spec (printDecimal 8 (n % COIN)).reverse (printDecimal 1 (n / COIN)).reverse
  rw [reverse_eq_iff, reverse_append, reverse_replicate] at hfrac
  rw [hfrac] at hge hle hdigits hvalue
  rw [length_append, length_replicate] at hge hle
  rw [all_append, Bool.and_eq_true] at hdigits
  rw [decimalValue_append, decimalValue_zeros, length_replicate] at hvalue
  refine ⟨_, frac.reverse, ?_, hwdigits, hdigits.1, ne_nil_of_length_pos hpos, hwlen, by omega, hwhole, ?_⟩
  · rw [formatMoney, if_neg (by omega)]
    simp [htrim]
  · rw [← hvalue, show 8 - frac.reverse.length = j by omega]
    rfl

theorem notMem_of_all {s : Bytes} {p : UInt8 → Bool} (hp : p 0 = false) (h : s.all p) : (0 : UInt8) ∉ s := by
  intro hs
  rw [all_eq_true.mp h 0 hs] at hp
  cases hp

theorem cString_eq : cString str = str ↔ (0 : UInt8) ∉ str := by
  rw [cString, takeWhile_eq_self_iff]
  constructor
  · exact fun h hs => of_decide_eq_true (h 0 hs) rfl
  · exact fun h c hc => decide_eq_true fun h' => h (h' ▸ hc)

theorem parseMoney_formatMoney {n : Nat} (hn : n < 10 ^ 18) : parseMoney (formatMoney n) = some n := by
  obtain ⟨whole, frac, heq, hwhole, hfrac, hne, hwle, hfle, hq, hr⟩ := formatMoney_shape hn
  obtain ⟨frac', rest, hparts, -, -, hend, hparse⟩ := parseFraction_spec frac 8 0
  obtain rfl : rest = [] := by
    rw [hparts, all_append, Bool.and_eq_true] at hfrac
    rw [hparts, length_append] at hfle
    obtain h | h := hend hfrac.2
    · exact h
    · exact eq_nil_of_length_eq_zero (by omega)
  rw [append_nil] at hparts
  subst hparts
  have hstr : cString (whole ++ 0x2e :: frac) = whole ++ 0x2e :: frac := by
    rw [cString_eq, mem_append, mem_cons]
    rintro (h | h | h)
    · exact notMem_of_all rfl hwhole h
    · cases h
    · exact notMem_of_all rfl hfrac h
  have hstart : (whole ++ 0x2e :: frac).dropWhile isspace = whole ++ 0x2e :: frac := by
    cases whole with
    | nil => exact absurd rfl hne
    | cons c whole =>
      rw [all_cons, Bool.and_eq_true] at hwhole
      exact dropWhile_cons_of_neg (by simp [(digit_other hwhole.1).2])
  rw [heq, parseMoney, hstr, hstart, parseWhole_digits _ _ _ hwhole, parseWhole, if_pos rfl,
    show CENT * 10 = 10 ^ 8 / 10 from rfl, hparse, hr, Nat.zero_add]
  change (if ¬all [] isspace ∨ whole.length > 10 ∨ n % COIN > COIN then none else _) = _
  have hmod : n % COIN < COIN := Nat.mod_lt _ (by decide)
  rw [if_neg (by simp; omega), nil_append, hq, Nat.div_add_mod']

theorem parseWhole_spec (h : parseWhole p strWhole = some (s, nUnits, rest)) :
    ∃ whole point frac, p = whole ++ (point ++ (frac ++ rest)) ∧ s = strWhole ++ whole ∧
      whole.all isdigit ∧ frac.all isdigit ∧ frac.length ≤ 8 ∧
      (point = [0x2e] ∨ point = [] ∧ frac = []) ∧
      nUnits = decimalValue frac * 10 ^ (8 - frac.length) := by
  induction p generalizing strWhole with
  | nil =>
    cases h
    exact ⟨[], [], [], rfl, (append_nil _).symm, rfl, rfl, Nat.zero_le _, .inr ⟨rfl, rfl⟩, rfl⟩
  | cons c p ih =>
    rw [parseWhole] at h
    split_ifs at h with hpoint hspace hdigit
    · obtain ⟨frac, rest', rfl, hdigits, hle, -, hparse⟩ := parseFraction_spec p 8 0
      rw [show CENT * 10 = 10 ^ 8 / 10 from rfl, hparse, Nat.zero_add] at h
      cases h
      exact ⟨[], [c], frac, rfl, (append_nil _).symm, rfl, hdigits, hle, .inl (hpoint ▸ rfl), rfl⟩
    · cases h
      exact ⟨[], [], [], rfl, (append_nil _).symm, rfl, rfl, Nat.zero_le _, .inr ⟨rfl, rfl⟩, rfl⟩
    · obtain ⟨whole, point, frac, rfl, rfl, hwhole, hrest⟩ := ih h
      exact ⟨c :: whole, point, frac, rfl, by simp, by rw [all_cons, hdigit, hwhole]; rfl, hrest⟩

theorem moneyText_of_parseMoney (h : parseMoney str = some nRet) :
    ∃ whole point frac, MoneyText (cString str) nRet whole point frac := by
  rw [parseMoney] at h
  obtain ⟨⟨whole, nUnits, rest⟩, hparse, h⟩ := Option.bind_eq_some_iff.mp h
  obtain ⟨_, point, frac, hp, rfl, hwhole, hfrac, hfle, hpoint, rfl⟩ := parseWhole_spec hparse
  change (if ¬rest.all isspace ∨ whole.length > 10 ∨ _ then none else some (_ : Nat)) = _ at h
  split_ifs at h with hbad
  rw [not_or, not_or, not_not] at hbad
  refine ⟨whole, point, frac, ⟨(cString str).takeWhile isspace, rest, ?_, all_takeWhile, hbad.1⟩,
    hwhole, hfrac, not_lt.mp hbad.2.1, hfle, hpoint, ?_⟩
  · rw [← hp, takeWhile_append_dropWhile]
  · cases h
    have hpow : COIN = 10 ^ (8 - frac.length) * 10 ^ frac.length := by
      rw [← Nat.pow_add, Nat.sub_add_cancel hfle]
      rfl
    rw [decimalValue_append, show 10 ^ 8 = COIN from rfl]
    calc (decimalValue whole * COIN + decimalValue frac * 10 ^ (8 - frac.length)) * 10 ^ frac.length
        = decimalValue whole * 10 ^ frac.length * COIN +
            decimalValue frac * (10 ^ (8 - frac.length) * 10 ^ frac.length) := by ring
      _ = _ := by rw [← hpow, Nat.add_mul]

theorem MoneyText.zero_notMem {str whole point frac : Bytes} {nRet : Nat}
    (h : MoneyText str nRet whole point frac) : (0 : UInt8) ∉ str := by
  obtain ⟨lead, rest, rfl, hlead, hrest⟩ := h.shape
  have hpoint : (0 : UInt8) ∉ point := by
    obtain rfl | ⟨rfl, -⟩ := h.point_eq <;> decide
  simp only [mem_append, not_or]
  exact ⟨notMem_of_all rfl hlead, notMem_of_all rfl h.whole_digits, hpoint, notMem_of_all rfl h.frac_digits,
    notMem_of_all rfl hrest⟩

/-- An amount below 10^18 is read back from its text. What is accepted has the shape of an amount
exactly when it contains no zero byte. -/
theorem money_text_round_trip (n : Nat) (str : Bytes) (nRet : Nat) :
    (n < 10 ^ 18 → parseMoney (formatMoney n) = some n) ∧
    (parseMoney str = some nRet →
      ((∃ whole point frac, MoneyText str nRet whole point frac) ↔ (0 : UInt8) ∉ str)) := by
  refine ⟨parseMoney_formatMoney, fun h => ⟨?_, fun hzero => ?_⟩⟩
  · rintro ⟨whole, point, frac, htext⟩
    exact htext.zero_notMem
  · have htext := moneyText_of_parseMoney h
    rwa [cString_eq.mpr hzero] at htext

/-- The text "1", a zero byte, "x" is accepted, since parsing works on the C string. -/
theorem text_behind_zero_accepted : parseMoney [0x31, 0, 0x78] = some 100000000 := by
  decide

end

end Utsuite.DecimalText
