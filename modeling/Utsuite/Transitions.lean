import Mathlib.Data.Set.Basic

namespace Utsuite.Transitions

variable {σ α ι : Type*}

/-- A system that takes one labelled step at a time. -/
structure System (σ ι : Type*) where
  start : Set σ
  next : σ → ι → σ → Prop

def System.under (T : System σ ι) (ok : σ → ι → Prop) : System σ ι where
  start := T.start
  next s i s' := ok s i ∧ T.next s i s'

inductive Reach (T : System σ ι) : σ → Prop
  | start {s : σ} (h : s ∈ T.start) : Reach T s
  | step {s s' : σ} {i : ι} (h : Reach T s) (hs : T.next s i s') : Reach T s'

theorem Reach.invariant {T : System σ ι} {P : σ → Prop} (hstart : ∀ s ∈ T.start, P s)
    (hstep : ∀ s i s', P s → T.next s i s' → P s') {s : σ} (h : Reach T s) : P s := by
  induction h with
  | start h => exact hstart _ h
  | step _ hs ih => exact hstep _ _ _ ih hs

/-- The labels lead from the first state to the last one. -/
inductive Run (T : System σ ι) (s : σ) : List ι → σ → Prop
  | nil : Run T s [] s
  | snoc {s' s'' : σ} {is : List ι} {i : ι} (h : Run T s is s') (hs : T.next s' i s'') :
      Run T s (is ++ [i]) s''

theorem Run.of_under (h : Run (T.under ok) s is s') : Run T s is s' := by
  induction h with
  | nil => exact .nil
  | snoc _ hs ih => exact .snoc ih hs.2

/-- A relation that every step carries over is carried over by every run. -/
theorem Run.simulation {T : System σ ι} {A : System α ι} {R : σ → α → Prop}
    (hstep : ∀ s i s' a, R s a → T.next s i s' → ∃ a', A.next a i a' ∧ R s' a')
    {s s' : σ} {is : List ι} (h : Run T s is s') {a : α} (hR : R s a) :
    ∃ a', Run A a is a' ∧ R s' a' := by
  induction h with
  | nil => exact ⟨a, .nil, hR⟩
  | snoc _ hs ih =>
    obtain ⟨a', hrun, hR'⟩ := ih
    obtain ⟨a'', hnext, hR''⟩ := hstep _ _ _ a' hR' hs
    exact ⟨a'', .snoc hrun hnext, hR''⟩

end Utsuite.Transitions
