import Mathlib.Logic.Relation

namespace Utsuite.HeightForest

open Relation.ReflTransGen

variable {α : Type*}

def Branch (parent : α → Option α) (a c : α) : Prop :=
  Relation.ReflTransGen (fun a b => parent a = some b) a c

structure Leveled (parent : α → Option α) (height : α → Nat) : Prop where
  child : ∀ {a b}, parent a = some b → height a = height b + 1
  root : ∀ {a}, parent a = none → height a = 0

variable {parent : α → Option α} {height : α → Nat} {a b c d : α}

theorem Branch.refl (a : α) : Branch parent a a := Relation.ReflTransGen.refl

theorem Branch.of_parent (h : parent a = some b) : Branch parent a b :=
  single h

theorem Branch.trans (h : Branch parent a b) (h' : Branch parent b c) : Branch parent a c :=
  Relation.ReflTransGen.trans h h'

theorem Branch.mono (hparent : ∀ a b, parent a = some b → parent' a = some b)
    (h : Branch parent a c) : Branch parent' a c :=
  Relation.ReflTransGen.mono hparent _ _ h

theorem Leveled.height_le (hl : Leveled parent height) (h : Branch parent a c) :
    height c ≤ height a := by
  induction h with
  | refl => exact Nat.le_refl _
  | tail _ hstep ih =>
    have := hl.child hstep
    omega

theorem Leveled.exists_at (hl : Leveled parent height) (a : α) (hle : h ≤ height a) :
    ∃ c, Branch parent a c ∧ height c = h := by
  induction hn : height a - h generalizing a with
  | zero => exact ⟨a, .refl a, by omega⟩
  | succ n ih =>
    cases hparent : parent a with
    | none =>
      have := hl.root hparent
      omega
    | some b =>
      have hb := hl.child hparent
      obtain ⟨c, hbranch, hc⟩ := ih b (by omega) (by omega)
      exact ⟨c, (Branch.of_parent hparent).trans hbranch, hc⟩

theorem Leveled.branch_of_le (hl : Leveled parent height) (hc : Branch parent a c)
    (hd : Branch parent a d) (hle : height d ≤ height c) : Branch parent c d := by
  have hunique : Relator.RightUnique fun a b => parent a = some b :=
    fun a b c hb hc => Option.some.inj (hb.symm.trans hc)
  rcases total_of_right_unique hunique hc hd with h | h
  · exact h
  · -- Then they are at one height, and the branch between them has no step.
    rcases cases_head h with rfl | ⟨e, hstep, hrest⟩
    · exact .refl d
    · have := hl.child hstep
      have := hl.height_le hrest
      omega

theorem Leveled.eq_of_height (hl : Leveled parent height) (hc : Branch parent a c)
    (hd : Branch parent a d) (heq : height c = height d) : c = d := by
  rcases cases_head (hl.branch_of_le hc hd (Nat.le_of_eq heq.symm)) with rfl | ⟨e, hstep, hrest⟩
  · rfl
  · have := hl.child hstep
    have := hl.height_le hrest
    omega

end Utsuite.HeightForest
