import Mathlib.Data.List.Basic
import Mathlib.Tactic.Ring

namespace Utsuite.PairLevels

open List

variable {α : Type} (op : α → α → α)

def pairUp : List α → List α
  | [] => []
  | [a] => [op a a]
  | a :: b :: l => op a b :: pairUp l

def level (xs : List α) : Nat → List α
  | 0 => xs
  | l + 1 => pairUp op (level xs l)

theorem length_pairUp (xs : List α) : (pairUp op xs).length = (xs.length + 1) / 2 := by
  fun_induction pairUp op xs with
  | case1 => simp
  | case2 a => simp
  | case3 a b l ih =>
    simp only [length_cons, ih]
    omega

def root : List α → Option α
  | [] => none
  | [a] => some a
  | a :: b :: l => root (pairUp op (a :: b :: l))
termination_by xs => xs.length
decreasing_by
  rw [length_pairUp]
  simp only [length_cons]
  omega

def Node (xs : List α) (l j : Nat) (a : α) : Prop := (level op xs l)[j]? = some a

def Sibling (xs : List α) (l j : Nat) (a : α) : Prop :=
  if j % 2 = 1 then Node op xs l (j - 1) a
  else Node op xs l (j + 1) a ∨ ((level op xs l).length ≤ j + 1 ∧ Node op xs l j a)

inductive Path (xs : List α) (p : Nat) : Nat → List α → Prop
  | nil : Path xs p 0 []
  | snoc {k : Nat} {b : List α} {s : α} :
      Path xs p k b → Sibling op xs k (p / 2 ^ k) s → Path xs p (k + 1) (b ++ [s])

def Twins (xs : List α) : Prop :=
  ∃ l j a, Node op xs l (2 * j) a ∧ Node op xs l (2 * j + 1) a

/-- Twins at level `l`, where the leaves below the second one end with number `c`. -/
def TwinsAt (xs : List α) (c l : Nat) : Prop :=
  ∃ j a, (2 * j + 2) * 2 ^ l = c ∧ Node op xs l (2 * j) a ∧ Node op xs l (2 * j + 1) a

def TwinsWithin (xs : List α) (c : Nat) : Prop := ∃ d ≤ c, ∃ l, TwinsAt op xs d l

def CollisionFree (xs : List α) : Prop :=
  ∀ l, ∀ a ∈ level op xs l, ∀ b ∈ level op xs l, ∀ c ∈ level op xs l, ∀ d ∈ level op xs l,
    op a b = op c d → a = c ∧ b = d

variable {op} {xs : List α}

theorem collisionFree_of_injective (h : Function.Injective2 op) : CollisionFree op xs :=
  fun _ _ _ _ _ _ _ _ _ heq => h heq

theorem getElem?_pairUp (xs : List α) (j : Nat) :
    (pairUp op xs)[j]? =
      xs[2 * j]?.map fun a => op a (xs[2 * j + 1]?.getD a) := by
  fun_induction pairUp op xs generalizing j with
  | case1 => rfl
  | case2 a =>
    cases j with
    | zero => rfl
    | succ j => rfl
  | case3 a b l ih =>
    cases j with
    | zero => rfl
    | succ j => exact ih j

theorem level_succ (xs : List α) (l : Nat) : level op xs (l + 1) = level op (pairUp op xs) l := by
  induction l with
  | zero => rfl
  | succ l ih =>
    rw [level, ih]
    rfl

theorem lt_length_level : j < (level op xs l).length ↔ j * 2 ^ l < xs.length := by
  induction l generalizing j with
  | zero => rw [level, pow_zero, mul_one]
  | succ l ih =>
    have hhalf : j < (level op xs (l + 1)).length ↔ 2 * j < (level op xs l).length := by
      rw [level, length_pairUp]
      omega
    rw [hhalf, ih, pow_succ', mul_left_comm, mul_assoc]

theorem Node.lt (h : Node op xs l j a) : j * 2 ^ l < xs.length :=
  lt_length_level.mp (List.getElem?_eq_some_iff.mp h).1

theorem Node.mem (h : Node op xs l j a) : a ∈ level op xs l :=
  mem_of_getElem? h

theorem Node.unique (ha : Node op xs l j a) (hb : Node op xs l j b) : a = b :=
  Option.some.inj (ha.symm.trans hb)

theorem exists_node (op : α → α → α) (h : j * 2 ^ l < xs.length) : ∃ a, Node op xs l j a :=
  ⟨_, getElem?_eq_getElem (lt_length_level.mpr h)⟩

theorem Node.pair (ha : Node op xs l (2 * j) a) (hb : Node op xs l (2 * j + 1) b) :
    Node op xs (l + 1) j (op a b) := by
  unfold Node at ha hb ⊢
  rw [level, getElem?_pairUp, ha, hb]
  rfl

theorem Node.self (ha : Node op xs l (2 * j) a) (hend : xs.length ≤ (2 * j + 1) * 2 ^ l) :
    Node op xs (l + 1) j (op a a) := by
  have hnone : (level op xs l)[2 * j + 1]? = none := by
    refine getElem?_eq_none (Nat.le_of_not_lt fun h => ?_)
    exact Nat.not_lt.mpr hend (lt_length_level.mp h)
  unfold Node at ha ⊢
  rw [level, getElem?_pairUp, ha, hnone]
  rfl

theorem Node.below (h : Node op xs (l + 1) j c) :
    ∃ a b, Node op xs l (2 * j) a ∧ c = op a b ∧
      (Node op xs l (2 * j + 1) b ∨ (xs.length ≤ (2 * j + 1) * 2 ^ l ∧ a = b)) := by
  have hlt : 2 * j * 2 ^ l < xs.length := by
    have := h.lt
    rw [pow_succ'] at this
    rw [mul_comm 2 j, mul_assoc]
    exact this
  obtain ⟨a, ha⟩ := exists_node op hlt
  by_cases hr : (2 * j + 1) * 2 ^ l < xs.length
  · obtain ⟨b, hb⟩ := exists_node op hr
    exact ⟨a, b, ha, h.unique (ha.pair hb), .inl hb⟩
  · have hend := Nat.le_of_not_lt hr
    exact ⟨a, a, ha, h.unique (ha.self hend), .inr ⟨hend, rfl⟩⟩

theorem Node.root (h : Node op xs l 0 a) (hle : xs.length ≤ 2 ^ l) (hlt : 2 ^ l < 2 * xs.length) :
    root op xs = some a := by
  induction l generalizing xs with
  | zero =>
    obtain ⟨x, rfl⟩ : ∃ x, xs = [x] := length_eq_one_iff.mp (by simp at hle hlt; omega)
    rw [PairLevels.root]
    exact h
  | succ l ih =>
    have hpos := Nat.two_pow_pos l
    rw [pow_succ'] at hle hlt
    match xs, h, hle, hlt with
    | [], _, _, hlt => exact absurd hlt (Nat.not_lt_zero _)
    | [_], _, _, hlt => simp only [length_singleton] at hlt; omega
    | x :: y :: zs, h, hle, hlt =>
      have hlen := length_pairUp op (x :: y :: zs)
      rw [PairLevels.root]
      refine ih ?_ (by omega) (by omega)
      unfold Node at h
      rw [level_succ] at h
      exact h

theorem root_nil : PairLevels.root op ([] : List α) = none := by rw [PairLevels.root]

theorem Sibling.above (h : Sibling op xs l j s) (ha : Node op xs l j a) :
    Node op xs (l + 1) (j / 2) (if j % 2 = 1 then op s a else op a s) := by
  unfold Sibling at h
  by_cases hodd : j % 2 = 1
  · rw [if_pos hodd] at h ⊢
    obtain ⟨i, rfl⟩ : ∃ i, j = 2 * i + 1 := ⟨j / 2, by omega⟩
    have hi : (2 * i + 1) / 2 = i := by omega
    rw [hi]
    exact Node.pair h ha
  · rw [if_neg hodd] at h ⊢
    obtain ⟨i, rfl⟩ : ∃ i, j = 2 * i := ⟨j / 2, by omega⟩
    have hi : 2 * i / 2 = i := by omega
    rw [hi]
    rcases h with hs | ⟨hend, hs⟩
    · exact ha.pair hs
    · rw [← ha.unique hs]
      refine ha.self (Nat.le_of_not_lt fun hlt => ?_)
      exact Nat.not_lt.mpr hend (lt_length_level.mpr hlt)

theorem TwinsAt.twins (h : TwinsAt op xs c l) : Twins op xs := by
  obtain ⟨j, a, -, hl, hr⟩ := h
  exact ⟨l, j, a, hl, hr⟩

/-- When two nodes of a level agree and the later one was made by doubling, there are twins inside
the earlier one. -/
theorem twinsWithin_of_incomplete (hop : CollisionFree op xs) (hij : i < j)
    (hj : xs.length < (j + 1) * 2 ^ l) (hi : Node op xs l i a) (hja : Node op xs l j a) :
    TwinsWithin op xs xs.length := by
  induction l generalizing i j a with
  | zero =>
    have := hja.lt
    omega
  | succ l ih =>
    obtain ⟨c, d, hc, rfl, hright⟩ := hi.below
    obtain ⟨c', d', hc', heq, hd'⟩ := hja.below
    -- the earlier node is complete, for the later one has leaves
    have hdone : (2 * i + 2) * 2 ^ l ≤ xs.length := by
      have h1 : (i + 1) * 2 ^ (l + 1) ≤ j * 2 ^ (l + 1) := Nat.mul_le_mul_right _ hij
      have h2 : (2 * i + 2) * 2 ^ l = (i + 1) * 2 ^ (l + 1) := by ring
      rw [h2]
      exact h1.trans hja.lt.le
    have hd : Node op xs l (2 * i + 1) d := by
      refine hright.resolve_right fun h => ?_
      have h3 : (2 * i + 1) * 2 ^ l < (2 * i + 2) * 2 ^ l :=
        Nat.mul_lt_mul_of_pos_right (Nat.lt_succ_self _) (Nat.two_pow_pos l)
      omega
    rcases hd' with hd' | ⟨-, rfl⟩
    · obtain ⟨-, rfl⟩ := hop l c hc.mem d hd.mem c' hc'.mem d' hd'.mem heq
      refine ih (by omega) ?_ hd hd'
      have h4 : (2 * j + 1 + 1) * 2 ^ l = (j + 1) * 2 ^ (l + 1) := by ring
      rw [h4]
      exact hj
    · obtain ⟨rfl, rfl⟩ := hop l c hc.mem d hd.mem c' hc'.mem c' hc'.mem heq
      exact ⟨_, hdone, l, i, _, rfl, hc, hd⟩

theorem twinsWithin_iff (hop : CollisionFree op xs) :
    TwinsWithin op xs xs.length ↔ Twins op xs := by
  constructor
  · rintro ⟨d, -, l, h⟩
    exact h.twins
  · rintro ⟨l, j, a, hl, hr⟩
    by_cases hdone : (2 * j + 2) * 2 ^ l ≤ xs.length
    · exact ⟨_, hdone, l, j, a, rfl, hl, hr⟩
    · exact twinsWithin_of_incomplete hop (Nat.lt_succ_self _) (Nat.lt_of_not_le hdone) hl hr

end Utsuite.PairLevels
