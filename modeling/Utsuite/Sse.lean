import Utsuite.ByteWords

namespace Utsuite.Sse

open ByteWords

@[ext] structure M128i where
  lane0 : UInt64
  lane1 : UInt64
  deriving DecidableEq

def M128i.map₂ (f : UInt64 → UInt64 → UInt64) (a b : M128i) : M128i :=
  ⟨f a.lane0 b.lane0, f a.lane1 b.lane1⟩

def word64 (hi lo : UInt32) : UInt64 := hi.toUInt64 <<< 32 ||| lo.toUInt64

def mmSetEpi32 (e3 e2 e1 e0 : UInt32) : M128i := ⟨word64 e1 e0, word64 e3 e2⟩

def mulLow (a b : UInt64) : UInt64 := (a &&& 0xFFFFFFFF) * (b &&& 0xFFFFFFFF)

def mmMulEpu32 : M128i → M128i → M128i := M128i.map₂ mulLow

def mmAddEpi64 : M128i → M128i → M128i := M128i.map₂ (· + ·)

def mmAndSi128 : M128i → M128i → M128i := M128i.map₂ (· &&& ·)

def mmXorSi128 : M128i → M128i → M128i := M128i.map₂ (· ^^^ ·)

def mmSlliEpi64 (a : M128i) (count : UInt64) : M128i := ⟨a.lane0 <<< count, a.lane1 <<< count⟩

def mmSrliEpi64 (a : M128i) (count : UInt64) : M128i := ⟨a.lane0 >>> count, a.lane1 >>> count⟩

def mmStoreSi128 (a : M128i) : Bytes := leBytes 8 a.lane0.toNat ++ leBytes 8 a.lane1.toNat

theorem toNat_low (a : UInt64) : (a &&& 0xFFFFFFFF).toNat = a.toNat % 2 ^ 32 := by
  rw [UInt64.toNat_and]
  exact Nat.and_two_pow_sub_one_eq_mod a.toNat 32

theorem toNat_mulLow (a b : UInt64) :
    (mulLow a b).toNat = a.toNat % 2 ^ 32 * (b.toNat % 2 ^ 32) := by
  have ha : a.toNat % 2 ^ 32 < 2 ^ 32 := Nat.mod_lt _ (by decide)
  have hb : b.toNat % 2 ^ 32 < 2 ^ 32 := Nat.mod_lt _ (by decide)
  have hlt : a.toNat % 2 ^ 32 * (b.toNat % 2 ^ 32) < 2 ^ 32 * 2 ^ 32 := Nat.mul_lt_mul'' ha hb
  rw [mulLow, UInt64.toNat_mul, toNat_low, toNat_low, Nat.mod_eq_of_lt (by omega)]

theorem toNat_word64_zero (lo : UInt32) : (word64 0 lo).toNat = lo.toNat := by
  simp [word64]

end Utsuite.Sse
