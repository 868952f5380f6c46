import Mathlib.Data.List.Basic
import Mathlib.Tactic.Ring

namespace Utsuite.ByteWords

open List

abbrev Bytes := List UInt8

theorem byte_cases {p : UInt8 → Prop} (h : ∀ n < 256, p (.ofNat n)) (c : UInt8) : p c := by
  have := h c.toNat c.toNat_lt
  rwa [UInt8.ofNat_toNat] at this

def zeroBytes (n : Nat) : {bytes : Bytes // bytes.length = n} := ⟨replicate n 0, length_replicate⟩

def leBytes : Nat → Nat → Bytes
  | 0, _ => []
  | width + 1, n => .ofNat n :: leBytes width (n / 256)

def leValue : Bytes → Nat
  | [] => 0
  | b :: bs => b.toNat + 256 * leValue bs

def beBytes (width n : Nat) : Bytes := (leBytes width n).reverse

def beValue (bs : Bytes) : Nat := bs.foldl (fun acc b => acc * 256 + b.toNat) 0

@[simp] theorem leBytes_length (width n : Nat) : (leBytes width n).length = width := by
  induction width generalizing n with
  | zero => rfl
  | succ width ih => simp [leBytes, ih]

@[simp] theorem beBytes_length (width n : Nat) : (beBytes width n).length = width := by
  simp [beBytes]

def beBlock (width n : Nat) : {bytes : Bytes // bytes.length = width} :=
  ⟨beBytes width n, beBytes_length width n⟩

theorem leValue_leBytes (width n : Nat) : leValue (leBytes width n) = n % 256 ^ width := by
  induction width generalizing n with
  | zero => simp [leBytes, leValue, Nat.mod_one]
  | succ width ih =>
    rw [leBytes, leValue, ih, UInt8.toNat_ofNat', pow_succ' (n := width), Nat.mod_mul]

theorem leValue_lt (bs : Bytes) : leValue bs < 256 ^ bs.length := by
  induction bs with
  | nil => simp [leValue]
  | cons b bs ih =>
    have hb := b.toNat_lt
    simp only [leValue, length_cons, pow_succ]
    omega

theorem leBytes_leValue (bs : Bytes) : leBytes bs.length (leValue bs) = bs := by
  induction bs with
  | nil => rfl
  | cons b bs ih =>
    have hb := b.toNat_lt
    have hdiv : (b.toNat + 256 * leValue bs) / 256 = leValue bs := by omega
    have hmod : .ofNat (b.toNat + 256 * leValue bs) = b := by
      apply UInt8.toNat_inj.mp
      simp only [UInt8.toNat_ofNat']
      omega
    simp only [length_cons, leBytes, leValue, hdiv, hmod, ih]

theorem leValue_append (xs ys : Bytes) :
    leValue (xs ++ ys) = leValue xs + 256 ^ xs.length * leValue ys := by
  induction xs with
  | nil => simp [leValue]
  | cons x xs ih =>
    rw [cons_append, leValue, leValue, ih, length_cons]
    ring

theorem leValue_concat (body : Bytes) (last : UInt8) :
    leValue (body ++ [last]) = leValue body + 256 ^ body.length * last.toNat := by
  rw [leValue_append]
  simp [leValue]

theorem foldl_be (bs : Bytes) (acc : Nat) :
    bs.foldl (fun acc b => acc * 256 + b.toNat) acc = acc * 256 ^ bs.length + beValue bs := by
  induction bs generalizing acc with
  | nil => simp [beValue]
  | cons b bs ih =>
    simp only [foldl_cons, length_cons, beValue]
    rw [ih, ih (0 * 256 + b.toNat)]
    ring

@[simp] theorem beValue_nil : beValue [] = 0 := rfl

theorem beValue_append (xs ys : Bytes) :
    beValue (xs ++ ys) = beValue xs * 256 ^ ys.length + beValue ys := by
  simp only [beValue, foldl_append]
  rw [foldl_be]
  rfl

theorem beValue_cons (b : UInt8) (bs : Bytes) :
    beValue (b :: bs) = b.toNat * 256 ^ bs.length + beValue bs := by
  have h := beValue_append [b] bs
  simpa [beValue] using h

theorem beValue_lt (bs : Bytes) : beValue bs < 256 ^ bs.length := by
  induction bs with
  | nil => simp
  | cons b bs ih =>
    have hb := b.toNat_lt
    have hle : (b.toNat + 1) * 256 ^ bs.length ≤ 256 * 256 ^ bs.length :=
      Nat.mul_le_mul_right _ (by omega)
    rw [beValue_cons, length_cons, pow_succ']
    rw [add_mul] at hle
    omega

theorem beValue_reverse (bs : Bytes) : beValue bs.reverse = leValue bs := by
  induction bs with
  | nil => rfl
  | cons b bs ih =>
    rw [reverse_cons, beValue_append, ih]
    simp only [length_singleton, pow_one, beValue, foldl_cons, foldl_nil,
      leValue]
    omega

theorem beValue_beBytes (width n : Nat) : beValue (beBytes width n) = n % 256 ^ width := by
  rw [beBytes, beValue_reverse, leValue_leBytes]

def signed (width n : Nat) : Int := if n < 2 ^ (width - 1) then n else (n : Int) - 2 ^ width

theorem signed_of_lt (h : n < 2 ^ (width - 1)) : signed width n = n := by
  simp [signed, h]

end Utsuite.ByteWords
