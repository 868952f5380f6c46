import Utsuite.ByteWords

namespace Utsuite.ByteMem

open ByteWords List

abbrev Mem := Nat → UInt8

def load (m : Mem) (pos n : Nat) : Bytes := (range n).map fun k => m (pos + k)

def store (m : Mem) (pos : Nat) (bs : Bytes) : Mem := fun i =>
  if pos ≤ i ∧ i < pos + bs.length then bs.getD (i - pos) 0 else m i

@[simp] theorem load_length (m : Mem) (pos n : Nat) : (load m pos n).length = n := by
  simp [load]

@[simp] theorem load_zero (m : Mem) (pos : Nat) : load m pos 0 = [] := rfl

@[simp] theorem store_nil (m : Mem) (pos : Nat) : store m pos [] = m := by
  funext i
  simp only [store, length_nil, add_zero]
  rw [if_neg (by omega)]

theorem load_add (m : Mem) (pos n k : Nat) :
    load m pos (n + k) = load m pos n ++ load m (pos + n) k := by
  simp only [load, range_add, map_append, map_map]
  congr 1
  apply map_congr_left
  intro i _
  simp [add_assoc]

theorem load_congr (h : ∀ i, pos ≤ i → i < pos + n → m i = m' i) :
    load m pos n = load m' pos n := by
  apply map_congr_left
  intro k hk
  have hk' := mem_range.mp hk
  exact h _ (by omega) (by omega)

theorem store_outside (h : i < pos ∨ pos + bs.length ≤ i) : store m pos bs i = m i := by
  rw [store, if_neg (by omega)]

theorem store_inside (h : pos ≤ i) (h' : i < pos + bs.length) :
    store m pos bs i = bs.getD (i - pos) 0 := by
  rw [store, if_pos ⟨h, h'⟩]

theorem load_store_same (m : Mem) (pos : Nat) (bs : Bytes) : load (store m pos bs) pos bs.length = bs := by
  apply ext_getElem (by simp)
  intro k hk hk'
  simp only [load, getElem_map, getElem_range]
  rw [store_inside (by omega) (by omega), Nat.add_sub_cancel_left, getD_eq_getElem?_getD,
    getElem?_eq_getElem hk', Option.getD_some]

theorem load_store_disjoint (m : Mem) (h : start + n ≤ pos ∨ pos + bs.length ≤ start) :
    load (store m pos bs) start n = load m start n := by
  apply load_congr
  intro i hi hi'
  exact store_outside (by omega)

def AgreeBelow (n : Nat) (m m' : Mem) : Prop := ∀ i, i < n → m i = m' i

theorem agree_load (h : AgreeBelow n m m') (hk : pos + k ≤ n) : load m pos k = load m' pos k :=
  load_congr fun i _ hi => h i (by omega)

theorem agree_store_end (h : AgreeBelow n m m') (bs : Bytes) :
    AgreeBelow (n + bs.length) (store m n bs) (store m' n bs) := by
  intro i hi
  by_cases hin : i < n
  · rw [store_outside (.inl hin), store_outside (.inl hin), h i hin]
  · rw [store_inside (by omega) hi, store_inside (by omega) hi]

def overwrite (buf : Bytes) (pos : Nat) (bs : Bytes) : Bytes :=
  buf.take pos ++ bs ++ buf.drop (pos + bs.length)

theorem overwrite_length (h : pos + bs.length ≤ buf.length) :
    (overwrite buf pos bs).length = buf.length := by
  simp only [overwrite, length_append, length_take, length_drop]
  omega

theorem overwrite_all (h : buf.length = bs.length) : overwrite buf 0 bs = bs := by
  simp [overwrite, ← h]

theorem overwrite_append (bs cs : Bytes) (h : pos + bs.length ≤ buf.length) :
    overwrite (overwrite buf pos bs) (pos + bs.length) cs = overwrite buf pos (bs ++ cs) := by
  have hpre : (buf.take pos ++ bs).length = pos + bs.length := by
    simp only [length_append, length_take]
    omega
  simp only [overwrite, length_append]
  rw [take_left' hpre, ← drop_drop, drop_left' hpre, drop_drop]
  simp [add_assoc]

end Utsuite.ByteMem
