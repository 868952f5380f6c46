import Mathlib.Data.List.Forall2

namespace Utsuite.GreedyMatch

open List

variable {α β : Type*} {R : α → β → Prop}

def greedy (fits : α → β → Bool) : List α → List β → Bool
  | [], _ => true
  | _ :: _, [] => false
  | a :: as, b :: bs => if fits a b then greedy fits as bs else greedy fits (a :: as) bs

theorem sublistForall₂_tail (h : List.SublistForall₂ R (a :: as) bs) :
    List.SublistForall₂ R as bs := by
  obtain ⟨l, hl, hsub⟩ := sublistForall₂_iff.mp h
  cases hl with
  | cons _ hrest => exact sublistForall₂_iff.mpr ⟨_, hrest, (sublist_cons_self _ _).trans hsub⟩

/-- Taking the first place that fits loses nothing: the items can be placed in order exactly when
the greedy way succeeds. -/
theorem greedy_iff :
    greedy fits as bs = true ↔ List.SublistForall₂ (fun a b => fits a b = true) as bs := by
  induction bs generalizing as with
  | nil =>
    cases as with
    | nil => exact ⟨fun _ => .nil, fun _ => rfl⟩
    | cons a as => exact ⟨nofun, nofun⟩
  | cons b bs ih =>
    cases as with
    | nil => exact ⟨fun _ => .nil, fun _ => rfl⟩
    | cons a as =>
      rw [greedy]
      split_ifs with hfits
      · rw [ih]
        refine ⟨.cons hfits, fun h => ?_⟩
        cases h with
        | cons _ h => exact h
        | cons_right h => exact sublistForall₂_tail h
      · rw [ih]
        refine ⟨.cons_right, fun h => ?_⟩
        cases h with
        | cons h _ => exact absurd h hfits
        | cons_right h => exact h

theorem length_le_of_sublistForall₂ (h : List.SublistForall₂ R as bs) : as.length ≤ bs.length := by
  obtain ⟨l, hl, hsub⟩ := sublistForall₂_iff.mp h
  exact hl.length_eq ▸ hsub.length_le

theorem greedy_eq_false (h : bs.length < as.length) : greedy fits as bs = false := by
  refine Bool.eq_false_iff.mpr fun hgreedy => ?_
  have hle := length_le_of_sublistForall₂ (greedy_iff.mp hgreedy)
  omega

theorem sublistForall₂_reverse (h : List.SublistForall₂ R as bs) :
    List.SublistForall₂ R as.reverse bs.reverse := by
  obtain ⟨l, hl, hsub⟩ := sublistForall₂_iff.mp h
  exact sublistForall₂_iff.mpr
    ⟨l.reverse, forall₂_reverse_iff.mpr hl, reverse_sublist.mpr hsub⟩

theorem greedy_reverse (fits : α → β → Bool) (as : List α) (bs : List β) :
    greedy fits as.reverse bs.reverse = greedy fits as bs := by
  rw [Bool.eq_iff_iff, greedy_iff, greedy_iff]
  refine ⟨fun h => ?_, sublistForall₂_reverse⟩
  have hback := sublistForall₂_reverse h
  rwa [reverse_reverse, reverse_reverse] at hback

theorem exists_fits_of_sublistForall₂ (h : List.SublistForall₂ R as bs) (ha : a ∈ as) :
    ∃ b ∈ bs, R a b := by
  induction h with
  | nil => cases ha
  | cons hr _ ih =>
    obtain rfl | ha := mem_cons.mp ha
    · exact ⟨_, mem_cons_self, hr⟩
    · obtain ⟨b, hb, hab⟩ := ih ha
      exact ⟨b, mem_cons_of_mem _ hb, hab⟩
  | cons_right _ ih =>
    obtain ⟨b, hb, hab⟩ := ih ha
    exact ⟨b, mem_cons_of_mem _ hb, hab⟩

theorem length_le_countP_of_sublistForall₂ (h : List.SublistForall₂ R as bs)
    (hp : ∀ a ∈ as, ∀ b, R a b → p b = true) : as.length ≤ bs.countP p := by
  induction h with
  | nil => exact Nat.zero_le _
  | cons hr _ ih =>
    obtain ⟨hhead, htail⟩ := forall_mem_cons.mp hp
    rw [length_cons, countP_cons_of_pos (hhead _ hr)]
    exact Nat.succ_le_succ (ih htail)
  | cons_right _ ih =>
    exact Nat.le_trans (ih hp) (List.Sublist.countP_le (sublist_cons_self _ _))

end Utsuite.GreedyMatch
