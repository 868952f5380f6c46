import Mathlib.Data.List.Nodup
import Mathlib.Data.List.Sort
import Mathlib.Data.List.TakeWhile
import Mathlib.Order.Defs.LinearOrder

namespace Utsuite.PairTable

open List

variable {α β γ δ κ : Type}

structure Sorter where
  sort : {α : Type} → (α → α → Bool) → List α → List α
  perm : ∀ {α : Type} (lt : α → α → Bool) (l : List α), (sort lt l).Perm l
  sorted : ∀ {α κ : Type} [LinearOrder κ] (key : α → κ) {lt : α → α → Bool},
    (∀ a b, lt a b = true ↔ key a < key b) →
      ∀ l : List α, (sort lt l).Pairwise fun a b => key a ≤ key b

def mergeSorter : Sorter where
  sort lt l := l.mergeSort fun a b => !lt b a
  perm lt l := mergeSort_perm l _
  sorted key lt hlt l := by
    have hle : ∀ a b, (!lt b a) = true ↔ key a ≤ key b := by
      intro a b
      rw [Bool.not_eq_true', ← Bool.not_eq_true, hlt, not_lt]
    refine (pairwise_mergeSort ?_ ?_ l).imp fun {a b} h => (hle a b).mp h
    · intro a b c hab hbc
      exact (hle a c).mpr (((hle a b).mp hab).trans ((hle b c).mp hbc))
    · intro a b
      rw [Bool.or_eq_true, hle, hle]
      exact le_total _ _

def joinPairs (join : α → α → Option β) : List α → List β
  | [] => []
  | a :: l => l.filterMap (join a) ++ joinPairs join l

def groups (same : α → α → Bool) : List α → List (List α)
  | [] => []
  | a :: l => (a :: l.takeWhile (same a)) :: groups same (l.dropWhile (same a))
termination_by l => l.length
decreasing_by exact Nat.lt_succ_of_le (dropWhile_sublist _).length_le

/-- A table that is overwritten from the front, with the results that wait for a free place. -/
structure Table (α : Type) where
  entries : List α
  pending : List α
  posFree : Nat

def store (limit : Nat) : List α → List α → Nat → Table α
  | [], X, posFree => ⟨X, [], posFree⟩
  | c :: Xc, X, posFree =>
    if posFree < limit then store limit Xc (X.set posFree c) (posFree + 1)
    else ⟨X, c :: Xc, posFree⟩

/-- The loop over the runs of equal keys. A run that has been read may be overwritten. -/
def scan (same : α → α → Bool) (join : α → α → Option α) : Nat → Nat → Table α → Table α
  | 0, _, s => s
  | rounds + 1, i, s =>
    match s.entries.drop i with
    | a :: b :: X =>
      let group := a :: (b :: X).takeWhile (same a)
      let Xc := (joinPairs join group).reverse ++ s.pending
      scan same join rounds (i + group.length) (store (i + group.length) Xc s.entries s.posFree)
    | _ => s

def collide (same : α → α → Bool) (join : α → α → Option α) (X : List α) : List α :=
  let s := scan same join X.length 0 ⟨X, [], 0⟩
  let s := store s.entries.length s.pending s.entries s.posFree
  if s.pending ≠ [] then s.entries ++ s.pending.reverse
  else s.entries.take s.posFree

section

structure Stored (limit posFree : Nat) (X Xc : List α) (s : Table α) : Prop where
  length_eq : s.entries.length = X.length
  posFree_le : s.posFree ≤ limit
  drop_eq : s.entries.drop limit = X.drop limit
  perm : (s.entries.take s.posFree ++ s.pending).Perm (X.take posFree ++ Xc)
  full : s.pending ≠ [] → s.posFree = limit

theorem store_stored (Xc X : List α) (hpos : posFree ≤ limit) (hlimit : limit ≤ X.length) :
    Stored limit posFree X Xc (store limit Xc X posFree) := by
  induction Xc generalizing X posFree with
  | nil => exact ⟨rfl, hpos, rfl, List.Perm.refl _, fun h => absurd rfl h⟩
  | cons c Xc ih =>
    rw [store]
    split
    · next hlt =>
        obtain ⟨hlen, hle, hdrop, hperm, hfull⟩ :=
          ih (X.set posFree c) (Nat.succ_le_of_lt hlt) (by simpa using hlimit)
        refine ⟨by simpa using hlen, hle, ?_, ?_, hfull⟩
        · rw [hdrop, drop_set_of_lt hlt]
        · have htake : (X.set posFree c).take (posFree + 1) = X.take posFree ++ [c] := by
            have hbound : posFree < (X.set posFree c).length := by
              rw [length_set]
              omega
            rw [take_succ_eq_append_getElem hbound, take_set_of_le le_rfl,
              getElem_set_self]
          rw [htake, append_assoc] at hperm
          exact hperm
    · next hge =>
        exact ⟨rfl, hpos, rfl, List.Perm.refl _, fun _ => le_antisymm hpos (Nat.le_of_not_lt hge)⟩

variable {same : α → α → Bool} {join : α → α → Option α}

/-- What is left from `i` on, and where the results are. The two counters `i` and `posFree` never
pass the end of the table. -/
structure Scanned (same : α → α → Bool) (join : α → α → Option α) (X : List α) (i : Nat)
    (s : Table α) : Prop where
  length_eq : s.entries.length = X.length
  posFree_le : s.posFree ≤ i
  position_le : i ≤ X.length
  drop_eq : s.entries.drop i = X.drop i
  perm : (s.entries.take s.posFree ++ s.pending ++
      (groups same (X.drop i)).flatMap (joinPairs join)).Perm
    ((groups same X).flatMap (joinPairs join))

theorem groups_cons_of_drop {X : List α} {i : Nat} {a : α} {l : List α} (h : X.drop i = a :: l) :
    groups same (X.drop i) =
      (a :: l.takeWhile (same a)) ::
        groups same (X.drop (i + (a :: l.takeWhile (same a)).length)) := by
  have hdrop : l.dropWhile (same a) = l.drop (l.takeWhile (same a)).length := by
    calc l.dropWhile (same a)
        = (l.takeWhile (same a) ++ l.dropWhile (same a)).drop (l.takeWhile (same a)).length :=
          drop_left.symm
      _ = l.drop (l.takeWhile (same a)).length := by rw [takeWhile_append_dropWhile]
  rw [h, groups, hdrop, length_cons, ← drop_drop, h, drop_succ_cons]

theorem scan_scanned (rounds : Nat) (h : Scanned same join X i s) (hrounds : X.length ≤ i + rounds) :
    ∃ i', Scanned same join X i' (scan same join rounds i s) ∧
      (groups same (X.drop i')).flatMap (joinPairs join) = [] := by
  induction rounds generalizing i s with
  | zero =>
    refine ⟨i, h, ?_⟩
    rw [drop_eq_nil_of_le (show X.length ≤ i from hrounds)]
    simp [groups]
  | succ rounds ih =>
    rw [scan]
    split
    · next a b l heq =>
        have hdrop : X.drop i = a :: b :: l := h.drop_eq ▸ heq
        have hlen : i + (a :: (b :: l).takeWhile (same a)).length ≤ X.length := by
          have h₁ := congrArg length hdrop
          have h₂ := (takeWhile_sublist (p := same a) (l := b :: l)).length_le
          simp only [length_drop, length_cons] at h₁ h₂ ⊢
          omega
        have hgroups : groups same (X.drop i) = _ := groups_cons_of_drop hdrop
        generalize hgroup : a :: (b :: l).takeWhile (same a) = group at hlen hgroups ⊢
        have hstored := store_stored ((joinPairs join group).reverse ++ s.pending) s.entries
          (Nat.le_add_right_of_le h.posFree_le) (h.length_eq ▸ hlen)
        have hpos : 0 < group.length := by
          rw [← hgroup]
          simp
        refine ih ⟨hstored.length_eq.trans h.length_eq, hstored.posFree_le, hlen, ?_, ?_⟩
          (by omega)
        · rw [hstored.drop_eq, ← drop_drop, h.drop_eq, drop_drop]
        · refine List.Perm.trans ?_ h.perm
          rw [hgroups, flatMap_cons, ← append_assoc]
          refine List.Perm.append_right _ (hstored.perm.trans ?_)
          rw [append_assoc]
          refine List.Perm.append_left _ (perm_append_comm.trans ?_)
          exact List.Perm.append_left _ (reverse_perm _)
    · next hnot =>
        refine ⟨i, h, ?_⟩
        rw [← h.drop_eq]
        match hX : s.entries.drop i with
        | [] => simp [groups]
        | [a] => simp [groups, joinPairs]
        | a :: b :: l => exact absurd hX (hnot a b l)

theorem collide_perm (X : List α) :
    (collide same join X).Perm ((groups same X).flatMap (joinPairs join)) := by
  have hstart : Scanned same join X 0 ⟨X, [], 0⟩ :=
    ⟨rfl, le_rfl, Nat.zero_le _, rfl, by simp⟩
  obtain ⟨i, h, hnil⟩ := scan_scanned X.length hstart (by omega)
  rw [collide]
  generalize scan same join X.length 0 ⟨X, [], 0⟩ = s at h ⊢
  have hpos : s.posFree ≤ s.entries.length := by
    rw [h.length_eq]
    exact h.posFree_le.trans h.position_le
  have hstored := store_stored s.pending s.entries hpos le_rfl
  have hperm := h.perm
  rw [hnil, append_nil] at hperm
  refine List.Perm.trans ?_ (hstored.perm.trans hperm)
  generalize store s.entries.length s.pending s.entries s.posFree = t at hstored ⊢
  split
  · next hpending =>
      rw [hstored.full hpending, ← hstored.length_eq, take_length]
      exact List.Perm.append_left _ (reverse_perm _)
  · next hpending =>
      rw [not_not.mp hpending, append_nil]

end

def sameJoin (same : α → α → Bool) (join : α → α → Option β) (a b : α) : Option β :=
  if same a b then join a b else none

theorem sameJoin_eq_some :
    sameJoin same join a b = some c ↔ same a b = true ∧ join a b = some c := by
  rw [sameJoin]
  split
  · next h => simp [h]
  · next h => simp [h]

section

variable {J : α → α → Option β}

theorem joinPairs_append (h : ∀ a ∈ l, ∀ b ∈ l', J a b = none) :
    joinPairs J (l ++ l') = joinPairs J l ++ joinPairs J l' := by
  induction l with
  | nil => rfl
  | cons a l ih =>
    have hnone : l'.filterMap (J a) = [] :=
      filterMap_eq_nil_iff.mpr fun b hb => h a (by simp) b hb
    rw [cons_append, joinPairs, joinPairs, filterMap_append, hnone, append_nil,
      ih fun a ha b hb => h a (by simp [ha]) b hb, append_assoc]

theorem joinPairs_congr (h : ∀ a ∈ l, ∀ b ∈ l, J a b = J' a b) :
    joinPairs J l = joinPairs J' l := by
  induction l with
  | nil => rfl
  | cons a l ih =>
    rw [joinPairs, joinPairs, ih fun a ha b hb => h a (by simp [ha]) b (by simp [hb])]
    congr 1
    exact filterMap_congr fun b hb => h a (by simp) b (by simp [hb])

theorem joinPairs_perm (hsymm : ∀ a b, J a b = J b a) (h : l.Perm l') :
    (joinPairs J l).Perm (joinPairs J l') := by
  induction h with
  | nil => exact List.Perm.refl _
  | cons a h ih => exact (h.filterMap _).append ih
  | swap a b l =>
    simp only [joinPairs, filterMap_cons, hsymm b a]
    cases J a b with
    | none =>
      simp only [← append_assoc]
      exact perm_append_comm.append_right _
    | some c =>
      simp only [cons_append, ← append_assoc]
      exact (perm_append_comm.append_right _).cons c
  | trans _ _ ih ih' => exact ih.trans ih'

theorem joinPairs_map (h : l.Pairwise fun a b => J (f a) (f b) = (J' a b).map g) :
    joinPairs J (l.map f) = (joinPairs J' l).map g := by
  induction h with
  | nil => rfl
  | cons ha _ ih =>
    rw [map_cons, joinPairs, joinPairs, map_append, filterMap_map, ih,
      map_filterMap]
    congr 1
    exact filterMap_congr ha

theorem mem_joinPairs : c ∈ joinPairs J l ↔ ∃ a b, [a, b].Sublist l ∧ J a b = some c := by
  induction l with
  | nil => simp [joinPairs]
  | cons a l ih =>
    rw [joinPairs, mem_append, mem_filterMap, ih]
    constructor
    · rintro (⟨b, hb, hc⟩ | ⟨x, y, hsub, hc⟩)
      · exact ⟨a, b, List.Sublist.cons_cons a (singleton_sublist.mpr hb), hc⟩
      · exact ⟨x, y, hsub.cons a, hc⟩
    · rintro ⟨x, y, hsub, hc⟩
      cases hsub with
      | cons _ hsub => exact .inr ⟨x, y, hsub, hc⟩
      | cons_cons _ hsub => exact .inl ⟨y, singleton_sublist.mp hsub, hc⟩

theorem pair_sublist_or (ha : a ∈ l) (hb : b ∈ l) (hne : a ≠ b) :
    [a, b].Sublist l ∨ [b, a].Sublist l := by
  induction l with
  | nil => simp at ha
  | cons x l ih =>
    obtain rfl | ha' := mem_cons.mp ha
    · have hb' := (mem_cons.mp hb).resolve_left hne.symm
      exact .inl (List.Sublist.cons_cons a (singleton_sublist.mpr hb'))
    · obtain rfl | hb' := mem_cons.mp hb
      · exact .inr (List.Sublist.cons_cons b (singleton_sublist.mpr ha'))
      · exact (ih ha' hb').imp (List.Sublist.cons x) (List.Sublist.cons x)

theorem mem_joinPairs_of_nodup (hsymm : ∀ a ∈ l, ∀ b ∈ l, J a b = J b a) (hl : l.Nodup) :
    c ∈ joinPairs J l ↔ ∃ a ∈ l, ∃ b ∈ l, a ≠ b ∧ J a b = some c := by
  rw [mem_joinPairs]
  constructor
  · rintro ⟨a, b, hsub, hc⟩
    have hnodup := hl.sublist hsub
    refine ⟨a, hsub.subset (by simp), b, hsub.subset (by simp), ?_, hc⟩
    simpa using hnodup
  · rintro ⟨a, ha, b, hb, hne, hc⟩
    obtain hsub | hsub := pair_sublist_or ha hb hne
    · exact ⟨a, b, hsub, hc⟩
    · exact ⟨b, a, hsub, hsymm a ha b hb ▸ hc⟩

theorem mem_joinPairs_of_irrefl (hsymm : ∀ a ∈ l, ∀ b ∈ l, J a b = J b a)
    (hirrefl : ∀ a ∈ l, J a a = none) : c ∈ joinPairs J l ↔ ∃ a ∈ l, ∃ b ∈ l, J a b = some c := by
  rw [mem_joinPairs]
  constructor
  · rintro ⟨a, b, hsub, hc⟩
    exact ⟨a, hsub.subset (by simp), b, hsub.subset (by simp), hc⟩
  · rintro ⟨a, ha, b, hb, hc⟩
    have hne : a ≠ b := by
      rintro rfl
      rw [hirrefl a ha] at hc
      cases hc
    obtain hsub | hsub := pair_sublist_or ha hb hne
    · exact ⟨a, b, hsub, hc⟩
    · exact ⟨b, a, hsub, hsymm a ha b hb ▸ hc⟩

theorem joinPairs_nodup (hl : l.Nodup)
    (hinj : ∀ a ∈ l, ∀ b ∈ l, ∀ a' ∈ l, ∀ b' ∈ l, ∀ c, J a b = some c → J a' b' = some c →
      a = a' ∧ b = b' ∨ a = b' ∧ b = a') : (joinPairs J l).Nodup := by
  induction l with
  | nil => exact nodup_nil
  | cons a l ih =>
    obtain ⟨ha, hl⟩ := nodup_cons.mp hl
    rw [joinPairs, nodup_append]
    refine ⟨?_, ih hl fun x hx y hy x' hx' y' hy' => hinj x (by simp [hx]) y (by simp [hy]) x'
      (by simp [hx']) y' (by simp [hy']), ?_⟩
    · refine pairwise_filterMap.mpr (hl.imp_of_mem ?_)
      rintro b b' hb hb' hne c hc _ hc' rfl
      obtain ⟨-, rfl⟩ | ⟨rfl, -⟩ := hinj a (by simp) b (by simp [hb]) a (by simp) b'
        (by simp [hb']) c hc hc'
      · exact hne rfl
      · exact ha hb'
    · intro c hc c' hc' heq
      obtain ⟨b, hb, hbc⟩ := mem_filterMap.mp hc
      obtain ⟨x, y, hsub, hxy⟩ := mem_joinPairs.mp hc'
      have hx : x ∈ l := hsub.subset (by simp)
      have hy : y ∈ l := hsub.subset (by simp)
      obtain ⟨rfl, -⟩ | ⟨rfl, -⟩ := hinj a (by simp) b (by simp [hb]) x (by simp [hx]) y
        (by simp [hy]) c hbc (heq ▸ hxy)
      · exact ha hx
      · exact ha hy

end

section

variable [LinearOrder κ] {key : α → κ} {same : α → α → Bool}

theorem groups_flatMap_joinPairs (hsame : ∀ a b, same a b = true ↔ key a = key b)
    (join : α → α → Option β) (hl : l.Pairwise fun a b => key a ≤ key b) :
    (groups same l).flatMap (joinPairs join) = joinPairs (sameJoin same join) l := by
  match l with
  | [] => simp [groups, joinPairs]
  | a :: l =>
    obtain ⟨ha, hl⟩ := pairwise_cons.mp hl
    have hsplit : l.takeWhile (same a) ++ l.dropWhile (same a) = l :=
      takeWhile_append_dropWhile
    have hrun : ∀ b ∈ a :: l.takeWhile (same a), key a = key b := by
      intro b hb
      obtain rfl | hb := mem_cons.mp hb
      · rfl
      · exact (hsame a b).mp (mem_takeWhile_imp hb)
    have hrest : ∀ b ∈ l.dropWhile (same a), key a ≠ key b := by
      have hsorted := hl.sublist (dropWhile_sublist (same a))
      have hhead := head?_dropWhile_not (same a) l
      have hsub := (dropWhile_sublist (l := l) (same a)).subset
      cases hdrop : l.dropWhile (same a) with
      | nil => simp
      | cons y ys =>
        rw [hdrop] at hsorted hhead hsub
        have hne : key a ≠ key y := fun h => by simp [(hsame a y).mpr h] at hhead
        have hlt : key a < key y := lt_of_le_of_ne (ha y (hsub (by simp))) hne
        intro b hb
        obtain rfl | hb := mem_cons.mp hb
        · exact hne
        · exact (lt_of_lt_of_le hlt ((pairwise_cons.mp hsorted).1 b hb)).ne
    rw [groups, flatMap_cons,
      groups_flatMap_joinPairs hsame join (hl.sublist (dropWhile_sublist _))]
    conv_rhs => rw [← hsplit, ← cons_append]
    rw [joinPairs_append]
    · congr 1
      refine joinPairs_congr fun b hb c hc => ?_
      rw [sameJoin, if_pos ((hsame b c).mpr ((hrun b hb).symm.trans (hrun c hc)))]
    · intro b hb c hc
      rw [sameJoin, if_neg]
      intro h
      exact hrest c hc ((hrun b hb).trans ((hsame b c).mp h))
termination_by l.length
decreasing_by exact Nat.lt_succ_of_le (dropWhile_sublist _).length_le

omit [LinearOrder κ] in
theorem sameJoin_comm (hsame : ∀ a b, same a b = true ↔ key a = key b)
    (hsymm : ∀ a b, join a b = join b a) (a b : α) :
    sameJoin same join a b = sameJoin same join b a := by
  have hcomm : same a b = same b a := by rw [Bool.eq_iff_iff, hsame, hsame, eq_comm]
  rw [sameJoin, sameJoin, hcomm, hsymm]

theorem groups_sorted_perm (hsame : ∀ a b, same a b = true ↔ key a = key b)
    (hsymm : ∀ a b, join a b = join b a) (hl : l.Pairwise fun a b => key a ≤ key b)
    (hperm : l.Perm l') :
    ((groups same l).flatMap (joinPairs join)).Perm (joinPairs (sameJoin same join) l') := by
  rw [groups_flatMap_joinPairs hsame join hl]
  exact joinPairs_perm (sameJoin_comm hsame hsymm) hperm

theorem collide_sorted_perm (hsame : ∀ a b, same a b = true ↔ key a = key b)
    (hsymm : ∀ a b, join a b = join b a) (hl : l.Pairwise fun a b => key a ≤ key b)
    (hperm : l.Perm l') : (collide same join l).Perm (joinPairs (sameJoin same join) l') :=
  (collide_perm l).trans (groups_sorted_perm hsame hsymm hl hperm)

end

end Utsuite.PairTable
