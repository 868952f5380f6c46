import Utsuite.Hoare

namespace Utsuite.FallibleCalls

open Hoare

variable {σ ρ ε α β : Type}

/-- Calls that are numbered in the order they are made. Some of them throw, and none touches `kept`. -/
structure Calls (σ ρ : Type) where
  made : σ → Nat
  throws : Nat → Bool
  kept : σ → ρ

variable (C : Calls σ ρ)

def Quiet (s : σ) (k : Nat) : Prop := ∀ n < k, C.throws (C.made s + n) = false

instance (s : σ) (k : Nat) : Decidable (Quiet C s k) :=
  inferInstanceAs (Decidable (∀ n < k, C.throws (C.made s + n) = false))

/-- The code makes `k` calls. It returns `a` if they are quiet and throws otherwise. -/
def Makes (k : Nat) (m : EStateM ε σ α) (a : α) : Prop :=
  ∀ s, (Quiet C s k → ∃ t, m s = .ok a t ∧ C.made t = C.made s + k ∧ C.kept t = C.kept s) ∧
    (¬Quiet C s k → ∃ e t, m s = .error e t ∧ C.kept t = C.kept s)

variable {C}

theorem quiet_add :
    Quiet C s (k + l) ↔ Quiet C s k ∧ ∀ n < l, C.throws (C.made s + k + n) = false := by
  constructor
  · intro h
    refine ⟨fun n hn => h n (by omega), fun n hn => ?_⟩
    rw [Nat.add_assoc]
    exact h (k + n) (by omega)
  · rintro ⟨hfirst, hrest⟩ n hn
    by_cases hk : n < k
    · exact hfirst n hk
    · have h := hrest (n - k) (by omega)
      rwa [Nat.add_assoc, Nat.add_sub_cancel' (by omega)] at h

theorem quiet_zero (s : σ) : Quiet C s 0 := fun n hn => absurd hn (Nat.not_lt_zero n)

theorem Makes.pure (a : α) : Makes C 0 (Pure.pure a : EStateM ε σ α) a :=
  fun s => ⟨fun _ => ⟨s, rfl, rfl, rfl⟩, fun h => absurd (quiet_zero s) h⟩

theorem Makes.of_modify (hmade : ∀ s, C.made (f s) = C.made s)
    (hkept : ∀ s, C.kept (f s) = C.kept s) : Makes C 0 (modify f : EStateM ε σ PUnit) ⟨⟩ :=
  fun s => ⟨fun _ => ⟨f s, rfl, hmade s, hkept s⟩, fun h => absurd (quiet_zero s) h⟩

theorem Makes.bind (hm : Makes C k m a) (hf : Makes C l (f a) b) : Makes C (k + l) (m >>= f) b := by
  intro s
  rw [quiet_add]
  by_cases hquiet : Quiet C s k
  · obtain ⟨t, hrun, hmade, hkept⟩ := (hm s).1 hquiet
    have hrest : (∀ n < l, C.throws (C.made s + k + n) = false) ↔ Quiet C t l := by
      rw [Quiet, hmade]
    rw [bind_apply_ok hrun, hrest]
    refine ⟨fun h => ?_, fun h => ?_⟩
    · obtain ⟨u, hrun', hmade', hkept'⟩ := (hf t).1 h.2
      exact ⟨u, hrun', by rw [hmade', hmade, Nat.add_assoc], by rw [hkept', hkept]⟩
    · obtain ⟨e, u, hrun', hkept'⟩ := (hf t).2 fun hq => h ⟨hquiet, hq⟩
      exact ⟨e, u, hrun', by rw [hkept', hkept]⟩
  · obtain ⟨e, t, hrun, hkept⟩ := (hm s).2 hquiet
    rw [bind_apply_error hrun]
    exact ⟨fun h => absurd h.1 hquiet, fun _ => ⟨e, t, rfl, hkept⟩⟩

end Utsuite.FallibleCalls
