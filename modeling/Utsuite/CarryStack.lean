import Mathlib.Algebra.Group.Nat.Defs
import Mathlib.Data.List.Basic

namespace Utsuite.CarryStack

open List

variable {β C : Type} (combine : C → β → Option C) (store : C → β)

/-- Adds a value to a stack as a binary counter adds one. Two values that meet are combined, which
may fail. -/
def carry : Nat → List (Option β) → C → Option (List (Option β) × C)
  | 0, X, c => some (X, c)
  | _ + 1, [], c => some ([some (store c)], c)
  | _ + 1, none :: X, c => some (some (store c) :: X, c)
  | rounds + 1, some x :: X, c =>
    match combine c x with
    | none => none
    | some c' => (carry rounds X c').map fun s => (none :: s.1, s.2)

def carryAll (rounds : Nat) : List C → List (Option β) × Option C → Option (List (Option β) × Option C)
  | [], s => some s
  | c :: cs, s =>
    match carry combine store rounds s.1 c with
    | none => none
    | some s' => carryAll rounds cs (s'.1, some s'.2)

def node (leaf : Nat → C) : Nat → Nat → Option C
  | 0, a => some (leaf a)
  | r + 1, a =>
    (node leaf r a).bind fun x => (node leaf r (a + 2 ^ r)).bind fun y => combine y (store x)

def pad (r : Nat) : List (Option β) → List (Option β)
  | [] => []
  | x :: X => replicate r none ++ x :: X

variable {combine store} {leaf : Nat → C} {rounds r : Nat}

theorem carryAll_append (cs cs' : List C) (s : List (Option β) × Option C) :
    carryAll combine store rounds (cs ++ cs') s =
      (carryAll combine store rounds cs s).bind (carryAll combine store rounds cs') := by
  induction cs generalizing s with
  | nil => rfl
  | cons c cs ih =>
    rw [cons_append, carryAll, carryAll]
    cases carry combine store rounds s.1 c with
    | none => rfl
    | some s' => exact ih _

theorem pad_succ (X : List (Option β)) :
    pad (r + 1) X = pad r (match X with | [] => [] | x :: X => none :: x :: X) := by
  cases X with
  | nil => rfl
  | cons x X =>
    rw [pad, pad, replicate_succ', append_assoc]
    rfl

theorem carryAll_block (hr : r ≤ rounds) (a : Nat) (X : List (Option β)) (last : Option C) :
    carryAll combine store rounds ((range' a (2 ^ r)).map leaf) (pad r X, last) =
      (node combine store leaf r a).bind fun c =>
        (carry combine store (rounds - r) X c).map fun s =>
          (replicate r none ++ s.1, some s.2) := by
  induction r generalizing a X last with
  | zero =>
    have hpad : pad 0 X = X := by cases X <;> rfl
    rw [hpad]
    change carryAll combine store rounds [leaf a] (X, last) = _
    rw [carryAll, node, Option.bind_some, Nat.sub_zero]
    cases carry combine store rounds X (leaf a) with
    | none => rfl
    | some s => rfl
  | succ r ih =>
    have hr' : r ≤ rounds := by omega
    have hsplit : range' a (2 ^ (r + 1)) =
        range' a (2 ^ r) ++ range' (a + 2 ^ r) (2 ^ r) := by
      rw [Nat.pow_succ, Nat.mul_two, List.range'_append_1]
    obtain ⟨n, hn⟩ : ∃ n, rounds - r = n + 1 := ⟨rounds - r - 1, by omega⟩
    have hleft : ∀ c, carry combine store (n + 1)
        (match X with | [] => [] | x :: X => none :: x :: X) c = some (some (store c) :: X, c) := by
      intro c
      cases X <;> rfl
    rw [hsplit, map_append, carryAll_append, pad_succ, ih hr', node]
    cases node combine store leaf r a with
    | none => rfl
    | some x =>
      rw [Option.bind_some, Option.bind_some, hn, hleft, Option.map_some, Option.bind_some]
      change carryAll combine store rounds _ (pad r (some (store x) :: X), some x) = _
      rw [ih hr']
      cases node combine store leaf r (a + 2 ^ r) with
      | none => rfl
      | some y =>
        rw [Option.bind_some, Option.bind_some, hn, carry,
          show rounds - (r + 1) = n by omega]
        cases combine y (store x) with
        | none => rfl
        | some c =>
          simp only [Option.bind_some, Option.map_map, Function.comp_def,
            replicate_succ', append_assoc, singleton_append]

theorem carryAll_empty (hr : r < rounds) :
    carryAll combine store rounds ((range (2 ^ r)).map leaf) ([], none) =
      (node combine store leaf r 0).map fun c =>
        (replicate r none ++ [some (store c)], some c) := by
  obtain ⟨n, hn⟩ : ∃ n, rounds - r = n + 1 := ⟨rounds - r - 1, by omega⟩
  rw [range_eq_range']
  refine (carryAll_block (Nat.le_of_lt hr) 0 [] none).trans ?_
  rw [hn]
  cases node combine store leaf r 0 with
  | none => rfl
  | some c => rfl

end Utsuite.CarryStack
