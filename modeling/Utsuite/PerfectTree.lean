import Mathlib.Data.List.Flatten
import Mathlib.Data.List.Lex
import Mathlib.Tactic.Ring

namespace Utsuite.PerfectTree

open List

variable {α : Type*}

inductive LeafTree (α : Type*)
  | leaf (a : α)
  | node (l r : LeafTree α)
  deriving DecidableEq

namespace LeafTree

def leaves : LeafTree α → List α
  | leaf a => [a]
  | node l r => l.leaves ++ r.leaves

def height : LeafTree α → Nat
  | leaf _ => 0
  | node l _ => l.height + 1

def Perfect : Nat → LeafTree α → Prop
  | 0, leaf _ => True
  | n + 1, node l r => l.Perfect n ∧ r.Perfect n
  | _, _ => False

def AllNodes (P : LeafTree α → LeafTree α → Prop) : LeafTree α → Prop
  | leaf _ => True
  | node l r => l.AllNodes P ∧ r.AllNodes P ∧ P l r

def fold {β : Type*} (f : α → β) (op : β → β → β) : LeafTree α → β
  | leaf a => f a
  | node l r => op (l.fold f op) (r.fold f op)

theorem Perfect.height {n : Nat} {t : LeafTree α} (h : t.Perfect n) : t.height = n := by
  induction n generalizing t with
  | zero =>
    cases t with
    | leaf a => rfl
    | node l r => exact h.elim
  | succ n ih =>
    cases t with
    | leaf a => exact h.elim
    | node l r => rw [LeafTree.height, ih h.1]

theorem Perfect.length_leaves {n : Nat} {t : LeafTree α} (h : t.Perfect n) :
    t.leaves.length = 2 ^ n := by
  induction n generalizing t with
  | zero =>
    cases t with
    | leaf a => rfl
    | node l r => exact h.elim
  | succ n ih =>
    cases t with
    | leaf a => exact h.elim
    | node l r => rw [leaves, length_append, ih h.1, ih h.2, pow_succ, Nat.mul_two]

theorem leaves_ne_nil (t : LeafTree α) : t.leaves ≠ [] := by
  induction t with
  | leaf a => exact cons_ne_nil _ _
  | node l r ihl _ => exact append_ne_nil_of_left_ne_nil ihl _

theorem Perfect.leaves_injective {n : Nat} {s t : LeafTree α} (hs : s.Perfect n) (ht : t.Perfect n)
    (h : s.leaves = t.leaves) : s = t := by
  induction n generalizing s t with
  | zero =>
    cases s with
    | node l r => exact hs.elim
    | leaf a =>
      cases t with
      | node l r => exact ht.elim
      | leaf b => simpa [leaves] using h
  | succ n ih =>
    cases s with
    | leaf a => exact hs.elim
    | node l r =>
      cases t with
      | leaf a => exact ht.elim
      | node l' r' =>
        have hlen : l.leaves.length = l'.leaves.length := by
          rw [hs.1.length_leaves, ht.1.length_leaves]
        obtain ⟨hl, hr⟩ := append_inj h hlen
        rw [ih hs.1 ht.1 hl, ih hs.2 ht.2 hr]

end LeafTree

def pairUp : List (LeafTree α) → List (LeafTree α)
  | a :: b :: ts => .node a b :: pairUp ts
  | _ => []

theorem pairUp_length (h : ts.length = 2 * m) : (pairUp ts).length = m := by
  induction m generalizing ts with
  | zero =>
    rw [eq_nil_of_length_eq_zero h]
    rfl
  | succ m ih =>
    match ts, h with
    | a :: b :: ts, h =>
      rw [pairUp, length_cons, ih (by simp only [length_cons] at h; omega)]

theorem pairUp_leaves (h : ts.length = 2 * m) :
    (pairUp ts).flatMap LeafTree.leaves = ts.flatMap LeafTree.leaves := by
  induction m generalizing ts with
  | zero =>
    rw [eq_nil_of_length_eq_zero h]
    rfl
  | succ m ih =>
    match ts, h with
    | a :: b :: ts, h =>
      simp only [pairUp, flatMap_cons, LeafTree.leaves, append_assoc]
      rw [ih (by simp only [length_cons] at h; omega)]

theorem forall_pairUp {P Q : LeafTree α → Prop} (hnode : ∀ a b, P a → P b → Q (.node a b))
    {ts : List (LeafTree α)} (h : ∀ t ∈ ts, P t) : ∀ t ∈ pairUp ts, Q t := by
  match ts with
  | [] => simp [pairUp]
  | [_] => simp [pairUp]
  | a :: b :: ts =>
    intro t ht
    obtain rfl | ht := mem_cons.mp ht
    · exact hnode a b (h a (by simp)) (h b (by simp))
    · exact forall_pairUp hnode (fun t ht => h t (by simp [ht])) t ht

theorem pairUp_perfect {n : Nat} {ts : List (LeafTree α)} (h : ∀ t ∈ ts, t.Perfect n) :
    ∀ t ∈ pairUp ts, t.Perfect (n + 1) :=
  forall_pairUp (fun _ _ ha hb => ⟨ha, hb⟩) h

theorem iterate_pairUp {m n : Nat} {ts : List (LeafTree α)} (hlen : ts.length = 2 ^ m)
    (h : ∀ t ∈ ts, t.Perfect n) :
    ∃ t, pairUp^[m] ts = [t] ∧ t.Perfect (n + m) ∧ t.leaves = ts.flatMap LeafTree.leaves := by
  induction m generalizing n ts with
  | zero =>
    obtain ⟨t, rfl⟩ := length_eq_one_iff.mp hlen
    exact ⟨t, rfl, h t (by simp), by simp⟩
  | succ m ih =>
    have hlen' : ts.length = 2 * 2 ^ m := by rw [hlen, pow_succ']
    obtain ⟨t, ht, hperfect, hleaves⟩ := ih (pairUp_length hlen') (pairUp_perfect h)
    refine ⟨t, ht, ?_, ?_⟩
    · rwa [add_right_comm] at hperfect
    · rw [hleaves, pairUp_leaves hlen']

def ofList [Inhabited α] : Nat → List α → LeafTree α
  | 0, l => .leaf (l.headD default)
  | n + 1, l => .node (ofList n (l.take (2 ^ n))) (ofList n (l.drop (2 ^ n)))

theorem ofList_perfect [Inhabited α] (n : Nat) (l : List α) : (ofList n l).Perfect n := by
  induction n generalizing l with
  | zero => trivial
  | succ n ih => exact ⟨ih _, ih _⟩

theorem ofList_leaves [Inhabited α] {n : Nat} {l : List α} (h : l.length = 2 ^ n) :
    (ofList n l).leaves = l := by
  induction n generalizing l with
  | zero =>
    obtain ⟨a, rfl⟩ := length_eq_one_iff.mp h
    rfl
  | succ n ih =>
    have hpow : 2 ^ (n + 1) = 2 ^ n + 2 ^ n := by rw [pow_succ]; ring
    rw [ofList, LeafTree.leaves, ih (by rw [length_take]; omega),
      ih (by rw [length_drop]; omega), take_append_drop]

end Utsuite.PerfectTree
