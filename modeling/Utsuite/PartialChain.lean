import Mathlib.Order.Interval.Set.Infinite

namespace Utsuite.PartialChain

open List

variable {α : Type*} (f : α → Option α)

def steps : Nat → α → Option α
  | 0, a => some a
  | n + 1, a => (f a).bind (steps n)

def Ends (a : α) : Prop := ∃ n, steps f n a = none

def Loops (a : α) : Prop := ∃ b i k, steps f i a = some b ∧ steps f (k + 1) b = some b

variable {f} {a : α}

theorem steps_add (i k : Nat) (a : α) : steps f (i + k) a = (steps f i a).bind (steps f k) := by
  induction i generalizing a with
  | zero => rw [Nat.zero_add, steps, Option.bind_some]
  | succ i ih =>
    rw [Nat.succ_add, steps, steps]
    cases f a with
    | none => rfl
    | some b => exact ih b

theorem steps_succ (n : Nat) (a : α) : steps f (n + 1) a = (steps f n a).bind f := by
  rw [steps_add]
  congr 1
  funext b
  rw [steps]
  cases f b <;> rfl

theorem ends_of_none (h : f a = none) : Ends f a := ⟨1, by rw [steps, h, Option.bind_none]⟩

theorem ends_iff_of_some (h : f a = some b) : Ends f a ↔ Ends f b := by
  constructor
  · rintro ⟨n, hn⟩
    cases n with
    | zero => cases hn
    | succ n =>
      rw [steps, h, Option.bind_some] at hn
      exact ⟨n, hn⟩
  · rintro ⟨n, hn⟩
    refine ⟨n + 1, ?_⟩
    rw [steps, h, Option.bind_some, hn]

theorem Loops.not_ends (h : Loops f a) : ¬Ends f a := by
  obtain ⟨b, i, k, hb, hloop⟩ := h
  have hround (m : Nat) : steps f (m * (k + 1)) b = some b := by
    induction m with
    | zero => rw [Nat.zero_mul, steps]
    | succ m ih => rw [Nat.succ_mul, steps_add, ih, Option.bind_some, hloop]
  rintro ⟨n, hn⟩
  have hle : n ≤ i + n * (k + 1) := (Nat.le_mul_of_pos_right n k.succ_pos).trans (Nat.le_add_left _ i)
  have hsome : steps f (i + n * (k + 1)) a = some b := by
    rw [steps_add, hb, Option.bind_some, hround]
  rw [← Nat.add_sub_cancel' hle, steps_add, hn] at hsome
  cases hsome

theorem loops_of_not_ends (hfinite : {b | f b ≠ none}.Finite) (h : ¬Ends f a) : Loops f a := by
  have hsome (n : Nat) : ∃ b, steps f n a = some b :=
    Option.ne_none_iff_exists'.mp fun hn => h ⟨n, hn⟩
  choose place hplace using hsome
  have hmaps : Set.MapsTo place Set.univ {b | f b ≠ none} := by
    intro n _ hn
    have hnext := hplace (n + 1)
    rw [steps_succ, hplace n, Option.bind_some, hn] at hnext
    cases hnext
  obtain ⟨i, -, j, -, hne, heq⟩ := Set.infinite_univ.exists_ne_map_eq_of_mapsTo hmaps hfinite
  -- the earlier of the two visits comes first
  wlog hlt : i < j generalizing i j
  · exact this j i hne.symm heq.symm (by omega)
  refine ⟨place i, i, j - i - 1, hplace i, ?_⟩
  have hlater := hplace j
  rw [show j = i + (j - i - 1 + 1) by omega, steps_add, hplace i, Option.bind_some] at hlater
  rw [hlater, heq]
  congr 2
  omega

theorem ends_iff (hfinite : {b | f b ≠ none}.Finite) : Ends f a ↔ ¬Loops f a :=
  ⟨fun h hloops => hloops.not_ends h, fun h => by_contra fun hends => h (loops_of_not_ends hfinite hends)⟩

end Utsuite.PartialChain
