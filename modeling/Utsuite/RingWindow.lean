import Utsuite.ByteMem

namespace Utsuite.RingWindow

open ByteWords ByteMem List

/-- The ring holds the last bytes of the stream, each at its position modulo the size. -/
def Holds (m : Mem) (size : Nat) (stream : Bytes) (n : Nat) : Prop :=
  ∀ q, q < n → n ≤ q + size → stream[q]? = some (m (q % size))

variable {m : Mem} {size n q k : Nat} {stream bs : Bytes}

theorem holds_zero : Holds m size stream 0 := fun q hq => absurd hq (Nat.not_lt_zero q)

theorem add_mod_of_lt (h : q % size + k < size) : (q + k) % size = q % size + k := by
  rw [Nat.add_mod, Nat.mod_eq_of_lt (by omega : k < size), Nat.mod_eq_of_lt h]

theorem Holds.store (h : Holds m size stream n) (hbs : bs = (stream.drop n).take bs.length)
    (hfit : n % size + bs.length ≤ size) :
    Holds (store m (n % size) bs) size stream (n + bs.length) := by
  intro q hq hwin
  by_cases hnew : n ≤ q
  · obtain ⟨k, rfl⟩ := Nat.le.dest hnew
    have hk : k < bs.length := by omega
    have hget : stream[n + k]? = bs[k]? := by
      rw [hbs, getElem?_take_of_lt hk, getElem?_drop]
    rw [add_mod_of_lt (by omega), store_inside (by omega) (by omega), Nat.add_sub_cancel_left, hget,
      getD_eq_getElem?_getD, getElem?_eq_getElem hk, Option.getD_some]
  · -- an older byte of the window is not among those overwritten
    have hout : q % size < n % size ∨ n % size + bs.length ≤ q % size := by
      by_contra hin
      obtain ⟨d, hd⟩ : ∃ d, q % size = n % size + d := Nat.exists_eq_add_of_le (by omega)
      have hlt : q % size < size := Nat.mod_lt q (by omega)
      have hmod : (n + d) % size = q % size := by rw [add_mod_of_lt (by omega), hd]
      have hzero := Nat.sub_mod_eq_zero_of_mod_eq hmod
      rw [Nat.mod_eq_of_lt (by omega)] at hzero
      omega
    rw [store_outside hout]
    exact h q (by omega) (by omega)

theorem Holds.load (h : Holds m size stream n) (hn : q + k ≤ n) (hwin : n ≤ q + size)
    (hfit : q % size + k ≤ size) : load m (q % size) k = (stream.drop q).take k := by
  apply ext_getElem?
  intro i
  by_cases hi : i < k
  · have hq := h (q + i) (by omega) (by omega)
    rw [add_mod_of_lt (by omega)] at hq
    rw [getElem?_take_of_lt hi, getElem?_drop, hq, ByteMem.load, getElem?_map,
      getElem?_range hi]
    rfl
  · have hlen : k ≤ i := by omega
    rw [getElem?_eq_none (by rw [load_length]; exact hlen),
      getElem?_eq_none ((length_take_le _ _).trans hlen)]

end Utsuite.RingWindow
