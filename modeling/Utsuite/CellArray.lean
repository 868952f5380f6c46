import Mathlib.Data.List.Basic

namespace Utsuite.CellArray

open List

variable {α : Type*}

/-- An array that was allocated and is written cell by cell. A cell that nothing was written to is
`none`. -/
abbrev Cells (α : Type*) := List (Option α)

def blank (n : Nat) : Cells α := List.replicate n none

def read (cells : Cells α) (i : Nat) : Option α := cells.getD i none

def write (cells : Cells α) (i : Nat) (a : α) : Option (Cells α) :=
  if i < cells.length then some (cells.set i (some a)) else none

def copy (dst src : Cells α) (n : Nat) : Option (Cells α) :=
  if n ≤ dst.length ∧ n ≤ src.length then some (src.take n ++ dst.drop n) else none

def move (cells : Cells α) (dst src n : Nat) : Option (Cells α) :=
  if dst + n ≤ cells.length ∧ src + n ≤ cells.length then
    some (cells.take dst ++ ((cells.drop src).take n ++ cells.drop (dst + n)))
  else none

def resized (cells : Cells α) (n : Nat) : Cells α := cells.take n ++ blank (n - cells.length)

def filled (xs : List α) : Cells α := xs.map some

@[simp] theorem length_blank (n : Nat) : (blank n : Cells α).length = n := length_replicate

@[simp] theorem length_filled (xs : List α) : (filled xs).length = xs.length := length_map some

theorem filled_append (xs ys : List α) : filled (xs ++ ys) = filled xs ++ filled ys :=
  map_append

theorem read_filled (xs : List α) (rest : Cells α) (h : i < xs.length) :
    read (filled xs ++ rest) i = xs[i]? := by
  rw [read, getD_eq_getElem?_getD, getElem?_append_left (by rwa [length_filled]), filled,
    getElem?_map, getElem?_eq_getElem h]
  rfl

theorem write_middle (left : Cells α) (cell : Option α) (right : Cells α) (a : α) :
    write (left ++ cell :: right) left.length a = some (left ++ some a :: right) := by
  have hlt : left.length < (left ++ cell :: right).length := by
    rw [length_append, length_cons]
    omega
  rw [write, if_pos hlt, set_append_right _ _ (Nat.le_refl _), Nat.sub_self, set_cons_zero]

theorem copy_filled (rest : Cells α) (h : xs.length ≤ n) :
    copy (blank n) (filled xs ++ rest) xs.length = some (filled xs ++ blank (n - xs.length)) := by
  have hlen := length_filled xs
  rw [copy, if_pos ⟨by rwa [length_blank], by rw [length_append, hlen]; omega⟩,
    take_left' hlen, blank, drop_replicate]
  rfl

theorem resized_filled (rest : Cells α) (h : xs.length ≤ n) :
    ∃ rest', resized (filled xs ++ rest) n = filled xs ++ rest' ∧ xs.length + rest'.length = n := by
  have hlen := length_filled xs
  refine ⟨rest.take (n - xs.length) ++ blank (n - (filled xs ++ rest).length), ?_, ?_⟩
  · rw [resized, take_append, hlen, take_of_length_le (by omega), append_assoc]
  · rw [length_append, length_blank, length_append, hlen, length_take]
    omega

theorem move_up (left mid right : Cells α) {count : Nat} (h : count ≤ right.length) :
    ∃ gap : Cells α, gap.length = count ∧
      move (left ++ (mid ++ right)) (left.length + count) left.length mid.length =
        some (left ++ (gap ++ (mid ++ right.drop count))) := by
  have hlen : (left ++ (mid ++ right)).length = left.length + (mid.length + right.length) := by
    rw [length_append, length_append]
  refine ⟨(mid ++ right).take count, ?_, ?_⟩
  · rw [length_take, length_append]
    omega
  · have hdrop : (left ++ (mid ++ right)).drop (left.length + count + mid.length) =
        right.drop count := by
      rw [Nat.add_assoc, ← drop_drop, drop_left, Nat.add_comm count, ← drop_drop,
        drop_left]
    rw [move, if_pos (by omega), hdrop, drop_left, take_left, take_length_add_append,
      append_assoc]

theorem move_down (left gone mid right : Cells α) :
    ∃ right' : Cells α, right'.length = gone.length + right.length ∧
      move (left ++ (gone ++ (mid ++ right))) left.length (left.length + gone.length) mid.length =
        some (left ++ (mid ++ right')) := by
  have hlen : (left ++ (gone ++ (mid ++ right))).length =
      left.length + (gone.length + (mid.length + right.length)) := by
    rw [length_append, length_append, length_append]
  refine ⟨(gone ++ (mid ++ right)).drop mid.length, ?_, ?_⟩
  · rw [length_drop, length_append, length_append]
    omega
  · rw [move, if_pos (by omega), ← drop_drop, ← drop_drop, drop_left, drop_left,
      take_left, take_left]

end Utsuite.CellArray
