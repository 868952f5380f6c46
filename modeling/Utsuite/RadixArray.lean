import Mathlib.Data.List.Induction
import Mathlib.Data.List.TakeWhile
import Mathlib.Data.Nat.Digits.Lemmas
import Mathlib.Tactic.Linarith
import Mathlib.Tactic.Ring

namespace Utsuite.RadixArray

open List

/-- Multiplies a number by `m` and adds a carry, the lowest digit first. What is left over is the
carry out of the highest digit. -/
def mulAdd (base m : Nat) : Nat → List Nat → List Nat × Nat
  | carry, [] => ([], carry)
  | carry, d :: ds =>
    let r := mulAdd base m ((carry + m * d) / base) ds
    ((carry + m * d) % base :: r.1, r.2)

/-- Reads digits from the highest one on into an array of fixed size. `none` says that a carry was
left over. -/
def convert (base m : Nat) : List Nat → List Nat → Option (List Nat)
  | [], ds => some ds
  | c :: input, ds =>
    let r := mulAdd base m c ds
    if r.2 = 0 then convert base m input r.1 else none

def significant (ds : List Nat) : List Nat := ds.reverse.dropWhile fun d => d = 0

variable {base m : Nat}

theorem mulAdd_length (carry : Nat) (ds : List Nat) :
    (mulAdd base m carry ds).1.length = ds.length := by
  induction ds generalizing carry with
  | nil => rfl
  | cons d ds ih => rw [mulAdd, length_cons, length_cons, ih]

theorem mulAdd_lt (hbase : 0 < base) (carry : Nat) (ds : List Nat) :
    ∀ d ∈ (mulAdd base m carry ds).1, d < base := by
  induction ds generalizing carry with
  | nil => exact fun _ hd => absurd hd not_mem_nil
  | cons d ds ih => exact forall_mem_cons.mpr ⟨Nat.mod_lt _ hbase, ih _⟩

theorem mulAdd_value (carry : Nat) (ds : List Nat) :
    Nat.ofDigits base (mulAdd base m carry ds).1 + base ^ ds.length * (mulAdd base m carry ds).2 =
      carry + m * Nat.ofDigits base ds := by
  induction ds generalizing carry with
  | nil => simp [mulAdd]
  | cons d ds ih =>
    have hnext := ih ((carry + m * d) / base)
    dsimp only [mulAdd]
    generalize mulAdd base m ((carry + m * d) / base) ds = r at hnext ⊢
    rw [Nat.ofDigits_cons, Nat.ofDigits_cons, length_cons]
    calc (carry + m * d) % base + base * Nat.ofDigits base r.1 + base ^ (ds.length + 1) * r.2
        = (carry + m * d) % base + base * (Nat.ofDigits base r.1 + base ^ ds.length * r.2) := by
          ring
      _ = (carry + m * d) % base + base * ((carry + m * d) / base) +
            m * (base * Nat.ofDigits base ds) := by
          rw [hnext]
          ring
      _ = carry + m * (d + base * Nat.ofDigits base ds) := by
          rw [Nat.mod_add_div]
          ring

theorem mulAdd_carry_eq_zero (h : carry + m * Nat.ofDigits base ds < base ^ ds.length) :
    (mulAdd base m carry ds).2 = 0 := by
  rw [← mulAdd_value] at h
  by_contra hne
  have := Nat.le_mul_of_pos_right (base ^ ds.length) (pos_of_ne_zero hne)
  omega

theorem mulAdd_zero (n : Nat) :
    mulAdd base m 0 (replicate n 0) = (replicate n 0, 0) := by
  induction n with
  | zero => rfl
  | succ n ih => simp [replicate_succ, mulAdd, ih]

theorem mulAdd_room (hc : c < m)
    (hroom : (Nat.ofDigits base ds + 1) * m ^ (n + 1) ≤ base ^ ds.length) :
    (mulAdd base m c ds).2 = 0 ∧
    Nat.ofDigits base (mulAdd base m c ds).1 = c + m * Nat.ofDigits base ds ∧
    (Nat.ofDigits base (mulAdd base m c ds).1 + 1) * m ^ n ≤
      base ^ (mulAdd base m c ds).1.length := by
  have hpow : 0 < m ^ n := Nat.pow_pos (Nat.zero_lt_of_lt hc)
  have hroom' : (c + m * Nat.ofDigits base ds + 1) * m ^ n ≤ base ^ ds.length := by
    refine le_trans ?_ hroom
    rw [pow_succ', ← mul_assoc]
    exact Nat.mul_le_mul_right _ (by linarith)
  have hzero : (mulAdd base m c ds).2 = 0 := by
    refine mulAdd_carry_eq_zero (lt_of_lt_of_le (Nat.lt_succ_self _) ?_)
    exact le_trans (Nat.le_mul_of_pos_right _ hpow) hroom'
  have hvalue : Nat.ofDigits base (mulAdd base m c ds).1 = c + m * Nat.ofDigits base ds := by
    rw [← mulAdd_value, hzero, mul_zero, add_zero]
  refine ⟨hzero, hvalue, ?_⟩
  rw [hvalue, mulAdd_length]
  exact hroom'

theorem convert_isSome (hin : ∀ c ∈ input, c < m)
    (hroom : (Nat.ofDigits base ds + 1) * m ^ input.length ≤ base ^ ds.length) :
    ∃ out, convert base m input ds = some out := by
  induction input generalizing ds with
  | nil => exact ⟨ds, rfl⟩
  | cons c input ih =>
    obtain ⟨hzero, -, hroom'⟩ := mulAdd_room (hin c mem_cons_self) hroom
    rw [convert, if_pos hzero]
    exact ih (fun c hc => hin c (mem_cons_of_mem _ hc)) hroom'

theorem convert_value (hbase : 0 < base) (hlt : ∀ d ∈ ds, d < base)
    (h : convert base m input ds = some out) :
    (∀ d ∈ out, d < base) ∧ out.length = ds.length ∧
      Nat.ofDigits base out =
        Nat.ofDigits m input.reverse + m ^ input.length * Nat.ofDigits base ds := by
  induction input generalizing ds with
  | nil =>
    obtain rfl := Option.some.inj h
    exact ⟨hlt, rfl, by simp⟩
  | cons c input ih =>
    rw [convert] at h
    split_ifs at h with hzero
    obtain ⟨hdigits, hlength, hv⟩ := ih (mulAdd_lt hbase c ds) h
    have hround : Nat.ofDigits base (mulAdd base m c ds).1 = c + m * Nat.ofDigits base ds := by
      rw [← mulAdd_value, hzero, mul_zero, add_zero]
    refine ⟨hdigits, hlength.trans (mulAdd_length c ds), ?_⟩
    rw [hv, hround, Nat.ofDigits_reverse_cons, length_cons, pow_succ]
    ring

theorem significant_eq_digits (hbase : 1 < base) (hlt : ∀ d ∈ ds, d < base) :
    significant ds = (Nat.digits base (Nat.ofDigits base ds)).reverse := by
  induction ds using reverseRecOn with
  | nil => simp [significant]
  | append_singleton ds d ih =>
    by_cases hd : d = 0
    · subst hd
      rw [Nat.ofDigits_append_zero, ← ih fun d hd => hlt d (mem_append_left _ hd)]
      simp [significant]
    · rw [Nat.digits_ofDigits base hbase _ hlt (by simpa using hd)]
      simp [significant, hd]

theorem convert_zeroes (hbase : 1 < base) (h : convert base m input (replicate size 0) = some out) :
    (∀ d ∈ out, d < base) ∧ out.length = size ∧
      Nat.ofDigits base out = Nat.ofDigits m input.reverse := by
  have hzero : ∀ d ∈ replicate size 0, d < base := by
    intro d hd
    rw [eq_of_mem_replicate hd]
    omega
  obtain ⟨hlt, hlength, hv⟩ := convert_value (Nat.zero_lt_of_lt hbase) hzero h
  exact ⟨hlt, by rwa [length_replicate] at hlength, by simpa using hv⟩

theorem convert_zeroes_isSome (hin : ∀ c ∈ input, c < m) (hroom : m ^ input.length ≤ base ^ size) :
    ∃ out, convert base m input (replicate size 0) = some out :=
  convert_isSome hin (by simpa using hroom)

theorem room_of_ratio (hq : 0 < q) (hbase : 0 < base) (h : m ^ q ≤ base ^ p) (n : Nat) :
    m ^ n ≤ base ^ (n * p / q + 1) := by
  refine (Nat.pow_le_pow_iff_left hq.ne').mp ?_
  calc (m ^ n) ^ q = (m ^ q) ^ n := by rw [← pow_mul, ← pow_mul, mul_comm]
    _ ≤ (base ^ p) ^ n := Nat.pow_le_pow_left h n
    _ = base ^ (n * p) := by rw [← pow_mul, mul_comm]
    _ ≤ base ^ ((n * p / q + 1) * q) := by
        refine Nat.pow_le_pow_right hbase ?_
        have := Nat.div_add_mod (n * p) q
        have := Nat.mod_lt (n * p) hq
        rw [add_mul, one_mul, mul_comm (n * p / q)]
        omega
    _ = (base ^ (n * p / q + 1)) ^ q := pow_mul _ _ _

theorem significant_take (h : ∀ d ∈ ds.drop n, d = 0) :
    significant (ds.take n) = significant ds := by
  have hsplit : ds.reverse = (ds.drop n).reverse ++ (ds.take n).reverse := by
    rw [← reverse_append, take_append_drop]
  rw [significant, significant, hsplit, dropWhile_append_of_pos]
  intro d hd
  exact decide_eq_true (h d (mem_reverse.mp hd))

/-- The digits in another base, highest digit first. Each leading zero stays one leading zero,
whatever the bases are, so that nothing is lost. -/
def recode (b c : Nat) (ds : List Nat) : List Nat :=
  replicate (ds.takeWhile fun d => d = 0).length 0 ++
    (Nat.digits c (Nat.ofDigits b ds.reverse)).reverse

theorem eq_zeroes_append (ds : List Nat) :
    ds = replicate (ds.takeWhile fun d => d = 0).length 0 ++ ds.dropWhile fun d => d = 0 := by
  have hzero : ∀ d ∈ ds.takeWhile fun d => d = 0, d = 0 := fun d hd => by
    simpa using mem_takeWhile_imp hd
  rw [← eq_replicate_of_mem hzero, takeWhile_append_dropWhile]

theorem zeroes_digits (z n : Nat) :
    ((replicate z 0 ++ (Nat.digits c n).reverse).takeWhile fun d => d = 0) = replicate z 0 := by
  have hzero : ∀ d ∈ replicate z 0, decide (d = 0) = true := fun d hd =>
    decide_eq_true (eq_of_mem_replicate hd)
  rw [takeWhile_append_of_pos hzero, append_right_eq_self]
  by_cases hn : n = 0
  · rw [hn, Nat.digits_zero]
    rfl
  · obtain ⟨d, rest, hrev⟩ := exists_cons_of_ne_nil
      (mt reverse_eq_nil_iff.mp (Nat.digits_ne_nil_iff_ne_zero.mpr hn))
    have hlast : (Nat.digits c n).getLast? = some d := by
      rw [← head?_reverse, hrev, head?_cons]
    have hne : d ≠ 0 := by
      rintro rfl
      exact Nat.getLast_digit_ne_zero c hn (getLast_of_getLast?_eq_some hlast)
    rw [hrev, takeWhile_cons, decide_eq_false hne]
    rfl

theorem ofDigits_recode (b c : Nat) (ds : List Nat) :
    Nat.ofDigits c (recode b c ds).reverse = Nat.ofDigits b ds.reverse := by
  rw [recode, reverse_append, reverse_reverse, reverse_replicate, Nat.ofDigits_append_replicate_zero,
    Nat.ofDigits_digits]

theorem recode_zeroes (b c : Nat) (ds : List Nat) :
    ((recode b c ds).takeWhile fun d => d = 0).length = (ds.takeWhile fun d => d = 0).length := by
  rw [recode, zeroes_digits, length_replicate]

theorem recode_lt (hc : 1 < c) : ∀ d ∈ recode b c ds, d < c := by
  intro d hd
  obtain hd | hd := mem_append.mp hd
  · rw [eq_of_mem_replicate hd]
    omega
  · exact Nat.digits_lt_base hc (mem_reverse.mp hd)

theorem recode_recode (hb : 1 < b) (hlt : ∀ d ∈ ds, d < b) : recode c b (recode b c ds) = ds := by
  have hsig := significant_eq_digits hb fun d hd => hlt d (mem_reverse.mp hd)
  rw [significant, reverse_reverse] at hsig
  rw [recode, recode_zeroes, ofDigits_recode, ← hsig, ← eq_zeroes_append]

theorem recode_eq (hbase : 1 < base)
    (h : convert base m (ds.dropWhile fun d => d = 0) (replicate size 0) = some out) :
    recode m base ds = replicate (ds.takeWhile fun d => d = 0).length 0 ++ significant out := by
  obtain ⟨hlt, -, hv⟩ := convert_zeroes hbase h
  have hvalue : Nat.ofDigits m ds.reverse = Nat.ofDigits m (ds.dropWhile fun d => d = 0).reverse := by
    conv_lhs => rw [eq_zeroes_append ds]
    rw [reverse_append, reverse_replicate, Nat.ofDigits_append_replicate_zero]
  rw [recode, significant_eq_digits hbase hlt, hv, hvalue]

end Utsuite.RadixArray
