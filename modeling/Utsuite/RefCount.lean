import Mathlib.Logic.Function.Basic

namespace Utsuite.RefCount

open List Function

variable {κ : Type*} [DecidableEq κ]

structure Counter (κ : Type*) where
  count : κ → Nat
  log : List (κ × Bool)

def empty : Counter κ := ⟨fun _ => 0, []⟩

def acquire (c : Counter κ) (k : κ) : Counter κ where
  count := update c.count k (c.count k + 1)
  log := if c.count k = 0 then c.log ++ [(k, true)] else c.log

def release (c : Counter κ) (k : κ) : Counter κ where
  count := update c.count k (c.count k - 1)
  log := if c.count k = 1 then c.log ++ [(k, false)] else c.log

def events (log : List (κ × Bool)) (k : κ) : List Bool :=
  (log.filter fun event => event.1 = k).map Prod.snd

def isOn (log : List (κ × Bool)) (k : κ) : Bool := (events log k).getLastD false

def Alternates (turns : List Bool) : Prop := ∀ i, ∀ b ∈ turns[i]?, b = (i % 2 == 0)

omit [DecidableEq κ] in
theorem alternates_concat (h : Alternates turns) :
    Alternates (turns ++ [turns.length % 2 == 0]) := by
  intro i b hb
  rcases Nat.lt_trichotomy i turns.length with hlt | rfl | hgt
  · rw [getElem?_append_left hlt] at hb
    exact h i b hb
  · rw [getElem?_concat_length] at hb
    exact (Option.mem_some_iff.mp hb).symm
  · rw [getElem?_eq_none (by simp; omega)] at hb
    cases hb

omit [DecidableEq κ] in
theorem getLastD_of_alternates (h : Alternates turns) :
    turns.getLastD false = true ↔ turns.length % 2 = 1 := by
  rcases eq_nil_or_concat turns with rfl | ⟨before, b, rfl⟩
  · simp
  · have hb := h before.length b (by simp)
    simp [hb]
    omega

theorem events_concat (log : List (κ × Bool)) (k k' : κ) (b : Bool) :
    events (log ++ [(k, b)]) k' = if k = k' then events log k' ++ [b] else events log k' := by
  unfold events
  rw [filter_append, map_append]
  split
  · rename_i hk
    simp [hk]
  · rename_i hk
    simp [hk]

def Tracks (c : Counter κ) : Prop :=
  ∀ k, Alternates (events c.log k) ∧ ((events c.log k).length % 2 = 1 ↔ 0 < c.count k)

theorem empty_tracks : Tracks (empty : Counter κ) :=
  fun _ => ⟨fun _ _ hb => (Option.not_mem_none _ hb).elim, by simp [empty, events]⟩

theorem Tracks.isOn_iff (h : Tracks c) (k : κ) : isOn c.log k = true ↔ 0 < c.count k :=
  (getLastD_of_alternates (h k).1).trans (h k).2

theorem Tracks.turn {c c' : Counter κ} (h : Tracks c) {k : κ} {b : Bool}
    (hlog : c'.log = c.log ++ [(k, b)]) (hother : ∀ k', k ≠ k' → c'.count k' = c.count k')
    (hbefore : b = true ↔ c.count k = 0) (hafter : b = true ↔ 0 < c'.count k) : Tracks c' := by
  intro k'
  rw [hlog, events_concat]
  split
  · rename_i hk
    subst hk
    obtain ⟨halt, hodd⟩ := h k
    have hb : b = ((events c.log k).length % 2 == 0) := by
      rw [Bool.eq_iff_iff, hbefore, beq_iff_eq]
      omega
    refine ⟨hb ▸ alternates_concat halt, ?_⟩
    rw [length_append, length_singleton, ← hafter, hbefore]
    omega
  · rename_i hk
    rw [hother k' hk]
    exact h k'

theorem Tracks.unchanged {c c' : Counter κ} (h : Tracks c) (hlog : c'.log = c.log)
    (hcount : ∀ k, 0 < c'.count k ↔ 0 < c.count k) : Tracks c' := by
  intro k
  rw [hlog, hcount]
  exact h k

theorem Tracks.acquire {c : Counter κ} (h : Tracks c) (k : κ) : Tracks (acquire c k) := by
  have hself : (RefCount.acquire c k).count k = c.count k + 1 := update_self ..
  have hother : ∀ k', k ≠ k' → (RefCount.acquire c k).count k' = c.count k' :=
    fun k' hk => update_of_ne (Ne.symm hk) ..
  by_cases hzero : c.count k = 0
  · exact h.turn (b := true) (if_pos hzero) hother (by simp [hzero]) (by simp [hself])
  · refine h.unchanged (if_neg hzero) fun k' => ?_
    by_cases hk : k = k'
    · subst hk
      rw [hself]
      omega
    · rw [hother k' hk]

theorem Tracks.release {c : Counter κ} (h : Tracks c) {k : κ} (hk : 0 < c.count k) :
    Tracks (release c k) := by
  have hself : (RefCount.release c k).count k = c.count k - 1 := update_self ..
  have hother : ∀ k', k ≠ k' → (RefCount.release c k).count k' = c.count k' :=
    fun k' hne => update_of_ne (Ne.symm hne) ..
  by_cases hone : c.count k = 1
  · refine h.turn (b := false) (if_pos hone) hother ?_ ?_
    · simp [hone]
    · simp [hself, hone]
  · refine h.unchanged (if_neg hone) fun k' => ?_
    by_cases hne : k = k'
    · subst hne
      rw [hself]
      omega
    · rw [hother k' hne]

theorem count_foldl {step : Counter κ → κ → Counter κ} (f : Nat → Nat)
    (hstep : ∀ c k, (step c k).count = update c.count k (f (c.count k))) (c : Counter κ)
    {keys : List κ} (hnodup : keys.Nodup) (k : κ) :
    (keys.foldl step c).count k = if k ∈ keys then f (c.count k) else c.count k := by
  induction keys generalizing c with
  | nil => rfl
  | cons key keys ih =>
    obtain ⟨hkey, hkeys⟩ := nodup_cons.mp hnodup
    rw [foldl_cons, ih _ hkeys, hstep]
    by_cases hk : k = key
    · subst hk
      rw [if_neg hkey, if_pos mem_cons_self, update_self]
    · simp [hk]

end Utsuite.RefCount
