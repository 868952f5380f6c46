import Mathlib.Data.List.Induction
import Mathlib.Data.List.Lex
import Mathlib.Data.Nat.Bitwise
import Utsuite.ByteWords

namespace Utsuite.BitPack

open ByteWords List

def ofDigits (b : Nat) (ds : List Nat) : Nat := ds.foldl (fun acc d => acc * b + d) 0

def digits (b : Nat) : Nat → Nat → List Nat
  | 0, _ => []
  | m + 1, n => digits b m (n / b) ++ [n % b]

@[simp] theorem digits_length (b m n : Nat) : (digits b m n).length = m := by
  induction m generalizing n with
  | zero => rfl
  | succ m ih => simp [digits, ih]

@[simp] theorem ofDigits_nil (b : Nat) : ofDigits b [] = 0 := rfl

theorem ofDigits_concat (b : Nat) (ds : List Nat) (d : Nat) :
    ofDigits b (ds ++ [d]) = ofDigits b ds * b + d := by
  rw [ofDigits, foldl_append]
  rfl

theorem ofDigits_digits (b m n : Nat) : ofDigits b (digits b m n) = n % b ^ m := by
  induction m generalizing n with
  | zero => simp [digits, Nat.mod_one]
  | succ m ih =>
    rw [digits, ofDigits_concat, ih, pow_succ', Nat.mod_mul]
    ring

theorem digits_lt (hb : 0 < b) (m n : Nat) : ∀ d ∈ digits b m n, d < b := by
  induction m generalizing n with
  | zero => simp [digits]
  | succ m ih =>
    intro d hd
    rw [digits, mem_append, mem_singleton] at hd
    obtain hd | rfl := hd
    · exact ih _ d hd
    · exact Nat.mod_lt _ hb

theorem ofDigits_lt (h : ∀ d ∈ ds, d < b) : ofDigits b ds < b ^ ds.length := by
  induction ds using reverseRecOn with
  | nil => simp
  | append_singleton ds d ih =>
    have hds := ih fun d' hd' => h d' (mem_append_left _ hd')
    have hd : d < b := h d (by simp)
    rw [ofDigits_concat, length_append, length_singleton, pow_succ]
    calc ofDigits b ds * b + d < (ofDigits b ds + 1) * b := by rw [Nat.succ_mul]; omega
      _ ≤ b ^ ds.length * b := Nat.mul_le_mul_right b hds

theorem digits_ofDigits (h : ∀ d ∈ ds, d < b) : digits b ds.length (ofDigits b ds) = ds := by
  induction ds using reverseRecOn with
  | nil => rfl
  | append_singleton ds d ih =>
    have hd : d < b := h d (by simp)
    have hdiv : (ofDigits b ds * b + d) / b = ofDigits b ds := by
      rw [mul_comm, Nat.mul_add_div (by omega), Nat.div_eq_of_lt hd, add_zero]
    have hmod : (ofDigits b ds * b + d) % b = d := by
      rw [Nat.mul_add_mod_self_right, Nat.mod_eq_of_lt hd]
    rw [ofDigits_concat, length_append, length_singleton, digits, hdiv, hmod,
      ih fun d' hd' => h d' (mem_append_left _ hd')]

theorem digits_eq_map (b m n : Nat) :
    digits b m n = (range m).map fun j => n / b ^ (m - 1 - j) % b := by
  induction m generalizing n with
  | zero => rfl
  | succ m ih =>
    rw [digits, ih, range_succ, map_append, map_singleton]
    congr 1
    · apply map_congr_left
      intro j hj
      have hj' := mem_range.mp hj
      rw [Nat.div_div_eq_div_mul, ← Nat.pow_succ', show (m - 1 - j).succ = m + 1 - 1 - j by omega]
    · rw [show m + 1 - 1 - m = 0 by omega, pow_zero, Nat.div_one]

theorem ofDigits_append (b : Nat) (xs ys : List Nat) :
    ofDigits b (xs ++ ys) = ofDigits b xs * b ^ ys.length + ofDigits b ys := by
  induction ys using reverseRecOn with
  | nil => simp
  | append_singleton ys y ih =>
    rw [← append_assoc, ofDigits_concat, ih, ofDigits_concat, length_append, length_singleton]
    ring

theorem ofDigits_mid (hds : ∀ d ∈ mid ++ low, d < b) (high : List Nat) :
    ofDigits b (high ++ (mid ++ low)) / b ^ low.length % b ^ mid.length = ofDigits b mid := by
  have hlow := ofDigits_lt fun d hd => hds d (mem_append_right mid hd)
  have hmid := ofDigits_lt fun d hd => hds d (mem_append_left low hd)
  rw [← append_assoc, ofDigits_append, mul_comm, Nat.mul_add_div (Nat.zero_lt_of_lt hlow),
    Nat.div_eq_of_lt hlow, add_zero, ofDigits_append, Nat.mul_add_mod_self_right, Nat.mod_eq_of_lt hmid]

theorem digits_slice (hds : ∀ d ∈ ds, d < b) (hlen : ds.length = n * m) :
    digits (b ^ n) m (ofDigits b ds) =
      (range m).map fun j => ofDigits b ((ds.drop (n * j)).take n) := by
  rw [digits_eq_map]
  apply map_congr_left
  intro j hj
  have hm : n * m = n * j + (n + n * (m - 1 - j)) := by
    rw [mem_range] at hj
    rw [add_comm n, ← Nat.mul_succ, ← Nat.mul_add]
    congr 1
    omega
  have hdigits : ∀ d ∈ (ds.drop (n * j)).take n ++ (ds.drop (n * j)).drop n, d < b := by
    rw [take_append_drop]
    exact fun d hd => hds d (mem_of_mem_drop hd)
  have h := ofDigits_mid hdigits (ds.take (n * j))
  rw [take_append_drop, take_append_drop, length_take, length_drop, length_drop, hlen, hm,
    Nat.add_sub_cancel_left, Nat.add_sub_cancel_left, Nat.min_eq_left (Nat.le_add_right _ _)] at h
  rwa [← pow_mul]

theorem beBytes_succ (width n : Nat) :
    beBytes (width + 1) n = beBytes width (n / 256) ++ [.ofNat n] := by
  rw [beBytes, leBytes, reverse_cons]
  rfl

theorem beBytes_eq_map (width n : Nat) :
    beBytes width n = (range width).map fun x => .ofNat (n >>> (8 * (width - x - 1))) := by
  induction width generalizing n with
  | zero => rfl
  | succ width ih =>
    rw [beBytes_succ, ih, range_succ, map_append, map_singleton]
    congr 1
    · apply map_congr_left
      intro x hx
      have hx' := mem_range.mp hx
      have hexp : 8 * (width + 1 - x - 1) = 8 + 8 * (width - x - 1) := by omega
      rw [hexp, Nat.shiftRight_add, Nat.shiftRight_eq_div_pow n 8]
    · rw [show width + 1 - width - 1 = 0 by omega]
      rfl

theorem beBytes_pad (pad : Nat) (h : n < 256 ^ width) :
    beBytes (pad + width) n = replicate pad 0 ++ beBytes width n := by
  induction width generalizing n with
  | zero =>
    have hn : n = 0 := by simpa using h
    subst hn
    induction pad with
    | zero => rfl
    | succ pad ih =>
      rw [add_zero] at ih
      rw [add_zero, beBytes_succ, Nat.zero_div, ih, replicate_succ']
      simp [beBytes, leBytes]
  | succ width ih =>
    have hdiv : n / 256 < 256 ^ width := by
      rw [Nat.div_lt_iff_lt_mul (by decide), ← pow_succ]
      exact h
    rw [← add_assoc, beBytes_succ, ih hdiv, beBytes_succ, append_assoc]

theorem beBytes_injective (hm : m < 256 ^ width) (hn : n < 256 ^ width)
    (h : beBytes width m = beBytes width n) : m = n := by
  have := congrArg beValue h
  rwa [beValue_beBytes, beValue_beBytes, Nat.mod_eq_of_lt hm, Nat.mod_eq_of_lt hn] at this

theorem beBytes_all_zero (h : n < 256 ^ width) : (beBytes width n).all (· == 0) = true ↔ n = 0 := by
  have hzero : beBytes width 0 = replicate width 0 := by
    have hpad := @beBytes_pad 0 0 width (by decide)
    rwa [add_zero, show beBytes 0 0 = [] from rfl, append_nil] at hpad
  constructor
  · intro hall
    apply beBytes_injective h (Nat.pow_pos (by decide))
    rw [hzero, eq_replicate_iff]
    exact ⟨beBytes_length _ _, fun b hb => beq_iff_eq.mp (all_eq_true.mp hall b hb)⟩
  · rintro rfl
    rw [hzero]
    simp

theorem beBytes_beValue (bs : Bytes) : beBytes bs.length (beValue bs) = bs := by
  have h := leBytes_leValue bs.reverse
  rw [← beValue_reverse, reverse_reverse, length_reverse] at h
  rw [beBytes, h, reverse_reverse]

theorem zipWith_xor_beBytes (width m n : Nat) :
    zipWith (· ^^^ ·) (beBytes width m) (beBytes width n) = beBytes width (m ^^^ n) := by
  induction width generalizing m n with
  | zero => rfl
  | succ width ih =>
    have hdiv : (m ^^^ n) / 256 = m / 256 ^^^ n / 256 := by
      simpa [Nat.shiftRight_eq_div_pow] using Nat.shiftRight_xor_distrib (i := 8) (a := m) (b := n)
    rw [beBytes_succ, beBytes_succ, beBytes_succ, zipWith_append (by simp), ih, hdiv]
    simp

theorem window_byte (acc a width k : Nat) :
    (acc >>> (a + k)) &&& (((2 ^ width - 1) >>> k) &&& 0xFF) =
      (((acc >>> a) % 2 ^ width) >>> k) % 256 := by
  rw [← Nat.and_assoc, Nat.shiftRight_add, ← Nat.shiftRight_and_distrib,
    Nat.and_two_pow_sub_one_eq_mod, show (0xFF : Nat) = 2 ^ 8 - 1 from rfl,
    Nat.and_two_pow_sub_one_eq_mod]

theorem append_lt_append_iff (us vs : List Nat) (h : xs.length = ys.length) :
    xs ++ us < ys ++ vs ↔ xs < ys ∨ xs = ys ∧ us < vs := by
  induction xs generalizing ys with
  | nil =>
    obtain rfl := eq_nil_of_length_eq_zero h.symm
    simp
  | cons x xs ih =>
    cases ys with
    | nil => simp at h
    | cons y ys =>
      simp only [cons_append, cons_lt_cons_iff, ih (by simpa using h),
        cons.injEq]
      tauto

theorem lt_of_take_lt {xs ys : List Nat} {m : Nat} (h : xs.take m < ys.take m) : xs < ys := by
  induction m generalizing xs ys with
  | zero => exact absurd h (lt_irrefl _)
  | succ m ih =>
    cases ys with
    | nil => exact absurd h (not_lt_nil _)
    | cons y ys =>
      cases xs with
      | nil => exact nil_lt_cons y ys
      | cons x xs =>
        rw [take_succ_cons, take_succ_cons] at h
        rw [cons_lt_cons_iff] at h ⊢
        exact h.imp_right (And.imp_right ih)

theorem take_le_take {xs ys : List Nat} (h : xs ≤ ys) (m : Nat) : xs.take m ≤ ys.take m :=
  not_lt.mp fun hlt => not_lt.mpr h (lt_of_take_lt hlt)

theorem map_toNat_injective {a b : Bytes} (h : a.map UInt8.toNat = b.map UInt8.toNat) : a = b :=
  (map_injective_iff.mpr fun _ _ => UInt8.toNat_inj.mp) h

theorem beBytes_lt_iff {width m n : Nat} (hm : m < 256 ^ width) (hn : n < 256 ^ width) :
    (beBytes width m).map UInt8.toNat < (beBytes width n).map UInt8.toNat ↔ m < n := by
  induction width generalizing m n with
  | zero =>
    have hm' : m = 0 := by simpa using hm
    have hn' : n = 0 := by simpa using hn
    simp [hm', hn']
  | succ width ih =>
    have hdiv : ∀ {k : Nat}, k < 256 ^ (width + 1) → k / 256 < 256 ^ width := by
      intro k hk
      rwa [Nat.div_lt_iff_lt_mul (by decide), ← pow_succ]
    have heq : (beBytes width (m / 256)).map UInt8.toNat =
        (beBytes width (n / 256)).map UInt8.toNat ↔ m / 256 = n / 256 :=
      ⟨fun h => beBytes_injective (hdiv hm) (hdiv hn) (map_toNat_injective h),
        fun h => by rw [h]⟩
    rw [beBytes_succ, beBytes_succ, map_append, map_append,
      append_lt_append_iff _ _ (by simp), ih (hdiv hm) (hdiv hn), heq]
    simp only [map_cons, map_nil, cons_lt_cons_iff, UInt8.toNat_ofNat',
      lt_irrefl, and_false, or_false]
    omega

theorem flatMap_beBytes_lt_iff {width : Nat} {l l' : List Nat} (hlen : l.length = l'.length)
    (hl : ∀ n ∈ l, n < 256 ^ width) (hl' : ∀ n ∈ l', n < 256 ^ width) :
    (l.flatMap (beBytes width)).map UInt8.toNat < (l'.flatMap (beBytes width)).map UInt8.toNat ↔
      l < l' := by
  induction l generalizing l' with
  | nil =>
    obtain rfl := eq_nil_of_length_eq_zero hlen.symm
    simp
  | cons n l ih =>
    cases l' with
    | nil => simp at hlen
    | cons n' l' =>
      have hn := hl n (by simp)
      have hn' := hl' n' (by simp)
      rw [flatMap_cons, flatMap_cons, map_append, map_append,
        append_lt_append_iff _ _ (by simp), beBytes_lt_iff hn hn',
        ih (by simpa using hlen) (fun k hk => hl k (by simp [hk]))
          (fun k hk => hl' k (by simp [hk])), cons_lt_cons_iff]
      have heq : (beBytes width n).map UInt8.toNat = (beBytes width n').map UInt8.toNat ↔
          n = n' :=
        ⟨fun h => beBytes_injective hn hn' (map_toNat_injective h), fun h => by rw [h]⟩
      rw [heq]

end Utsuite.BitPack
