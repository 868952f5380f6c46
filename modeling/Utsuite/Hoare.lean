import Mathlib.Tactic.Common

namespace Utsuite.Hoare

variable {σ ε α β : Type}

@[simp] theorem pure_apply (a : α) (s : σ) : (pure a : EStateM ε σ α) s = .ok a s := rfl

@[simp] theorem throw_apply (e : ε) (s : σ) :
    (MonadExcept.throw e : EStateM ε σ α) s = .error e s := rfl

@[simp] theorem set_apply (t s : σ) : (set t : EStateM ε σ PUnit) s = .ok ⟨⟩ t := rfl

@[simp] theorem modify_apply (f : σ → σ) (s : σ) :
    (modify f : EStateM ε σ PUnit) s = .ok ⟨⟩ (f s) := rfl

@[simp] theorem get_bind_apply (f : σ → EStateM ε σ α) (s : σ) : (get >>= f) s = f s s := rfl

theorem bind_apply_ok {m : EStateM ε σ α} {f : α → EStateM ε σ β} {s t : σ} {a : α}
    (h : m s = .ok a t) : (m >>= f) s = f a t := by
  change EStateM.bind m f s = _
  unfold EStateM.bind
  rw [h]

theorem bind_apply_error {m : EStateM ε σ α} {f : α → EStateM ε σ β} {s t : σ} {e : ε}
    (h : m s = .error e t) : (m >>= f) s = .error e t := by
  change EStateM.bind m f s = _
  unfold EStateM.bind
  rw [h]

theorem discard_bind_apply_ok {m : EStateM ε σ α} {f : PUnit → EStateM ε σ β} {s t : σ} {a : α}
    (h : m s = .ok a t) : (discard m >>= f) s = f ⟨⟩ t :=
  bind_apply_ok (bind_apply_ok h)

theorem discard_bind_apply_error {m : EStateM ε σ α} {f : PUnit → EStateM ε σ β} {s t : σ} {e : ε}
    (h : m s = .error e t) : (discard m >>= f) s = .error e t :=
  bind_apply_error (bind_apply_error h)

theorem bind_eq_ok_iff {m : EStateM ε σ α} {f : α → EStateM ε σ β} {s t : σ} {b : β} :
    (m >>= f) s = .ok b t ↔ ∃ a s', m s = .ok a s' ∧ f a s' = .ok b t := by
  cases h : m s with
  | ok a s' =>
    rw [bind_apply_ok h]
    exact ⟨fun hf => ⟨a, s', rfl, hf⟩, fun ⟨_, _, heq, hf⟩ => by cases heq; exact hf⟩
  | error e s' =>
    rw [bind_apply_error h]
    exact ⟨nofun, fun ⟨_, _, heq, _⟩ => by cases heq⟩

theorem except_bind_eq_ok_iff {x : Except ε α} {f : α → Except ε β} {b : β} :
    x.bind f = .ok b ↔ ∃ a, x = .ok a ∧ f a = .ok b := by
  cases x with
  | error e =>
    constructor
    · rintro ⟨⟩
    · rintro ⟨_, ⟨⟩, _⟩
  | ok a =>
    constructor
    · exact fun h => ⟨a, rfl, h⟩
    · rintro ⟨_, ⟨⟩, h⟩
      exact h

theorem ok_bind (a : α) (f : α → Except ε β) : (.ok a >>= f) = f a := rfl

/-- The code returns a value that satisfies `Q`, or it throws one that satisfies `E`. -/
def Ends (x : Except ε α) (Q : α → Prop) (E : ε → Prop) : Prop :=
  match x with
  | .ok a => Q a
  | .error e => E e

theorem Ends.bind {x : Except ε α} {f : α → Except ε β} {R : α → Prop} {Q : β → Prop}
    {E : ε → Prop} (hx : Ends x R E) (hf : ∀ a, R a → Ends (f a) Q E) : Ends (x >>= f) Q E := by
  cases x with
  | error e => exact hx
  | ok a => exact hf a hx

theorem Ends.guard {c : Prop} [Decidable c] {x : Except ε α} {e : ε} {Q : α → Prop} {E : ε → Prop}
    (he : E e) (hx : ¬c → Ends x Q E) : Ends (if c then .error e else x) Q E := by
  by_cases h : c
  · rw [if_pos h]
    exact he
  · rw [if_neg h]
    exact hx h

theorem Ends.imp {x : Except ε α} {Q R : α → Prop} {E : ε → Prop} (hx : Ends x Q E)
    (h : ∀ a, Q a → R a) : Ends x R E := by
  cases x with
  | error e => exact hx
  | ok a => exact h a hx

@[simp] theorem set_bind_apply (t s : σ) (f : PUnit → EStateM ε σ α) :
    (set t >>= f) s = f ⟨⟩ t := rfl

@[simp] theorem map_set_apply (g : PUnit → α) (t s : σ) :
    (g <$> set t : EStateM ε σ α) s = .ok (g ⟨⟩) t := rfl

@[simp] theorem modify_bind_apply (g : σ → σ) (s : σ) (f : PUnit → EStateM ε σ α) :
    (modify g >>= f) s = f ⟨⟩ (g s) := rfl

/-- From every state in `P` the code ends in `Q`, or it throws and leaves a state in `E`. -/
def Triple (P : σ → Prop) (m : EStateM ε σ α) (Q : α → σ → Prop) (E : ε → σ → Prop) : Prop :=
  ∀ s, P s → match m s with
    | .ok a t => Q a t
    | .error e t => E e t

variable {P P' : σ → Prop} {Q Q' : α → σ → Prop} {E E' : ε → σ → Prop} {m : EStateM ε σ α}

theorem Triple.weaken (h : Triple P m Q E) (hP : ∀ s, P' s → P s) (hQ : ∀ a s, Q a s → Q' a s)
    (hE : ∀ e s, E e s → E' e s) : Triple P' m Q' E' := by
  intro s hs
  have := h s (hP s hs)
  cases hm : m s with
  | ok a t =>
    rw [hm] at this
    exact hQ a t this
  | error e t =>
    rw [hm] at this
    exact hE e t this

theorem Triple.pre (h : Triple P m Q E) (hP : ∀ s, P' s → P s) : Triple P' m Q E :=
  h.weaken hP (fun _ _ => id) fun _ _ => id

theorem Triple.imp (h : Triple P m Q E) (hQ : ∀ a s, Q a s → Q' a s) (hE : ∀ e s, E e s → E' e s) :
    Triple P m Q' E' :=
  h.weaken (fun _ => id) hQ hE

theorem Triple.post (h : Triple P m Q E) (hQ : ∀ a s, Q a s → Q' a s) : Triple P m Q' E :=
  h.imp hQ fun _ _ => id

theorem Triple.pure {a : α} (h : ∀ s, P s → Q a s) : Triple P (Pure.pure a) Q E :=
  fun s hs => h s hs

theorem Triple.throw {e : ε} (h : ∀ s, P s → E e s) :
    Triple P (MonadExcept.throw e : EStateM ε σ α) Q E :=
  fun s hs => h s hs

theorem Triple.bind {f : α → EStateM ε σ β} {R : α → σ → Prop} {Q : β → σ → Prop}
    (hm : Triple P m R E) (hf : ∀ a, Triple (R a) (f a) Q E) : Triple P (m >>= f) Q E := by
  intro s hs
  have := hm s hs
  change match EStateM.bind m f s with
    | .ok b t => Q b t
    | .error e t => E e t
  unfold EStateM.bind
  cases h : m s with
  | ok a t =>
    rw [h] at this
    exact hf a t this
  | error e t =>
    rw [h] at this
    exact this

theorem Triple.bind_throw {f : α → EStateM ε σ β} {R : α → σ → Prop} {Q : β → σ → Prop}
    (hm : Triple P m R E') (hE : ∀ e s, E' e s → E e s) (hf : ∀ a, Triple (R a) (f a) Q E) :
    Triple P (m >>= f) Q E :=
  (hm.imp (fun _ _ => id) hE).bind hf

theorem Triple.bind_fact {f : α → EStateM ε σ β} {R : α → Prop} {Q : β → σ → Prop}
    (hm : Triple P m (fun a s => R a ∧ P' s) E) (hf : ∀ a, R a → Triple P' (f a) Q E) :
    Triple P (m >>= f) Q E :=
  .bind hm fun a s hs => hf a hs.1 s hs.2

theorem Triple.get_bind {f : σ → EStateM ε σ α}
    (h : ∀ s, P s → Triple (fun t => t = s) (f s) Q E) : Triple P (get >>= f) Q E :=
  fun s hs => h s hs s rfl

theorem Triple.get_bind_all {f : σ → EStateM ε σ α} (h : ∀ s, Triple P (f s) Q E) :
    Triple P (get >>= f) Q E :=
  fun s hs => h s s hs

theorem Triple.map {g : α → β} {Q : β → σ → Prop} (h : Triple P m (fun a => Q (g a)) E) :
    Triple P (g <$> m) Q E :=
  .bind h fun _ _ => id

theorem Triple.modify {f : σ → σ} {Q : PUnit → σ → Prop} (h : ∀ s, P s → Q ⟨⟩ (f s)) :
    Triple P (modify f : EStateM ε σ PUnit) Q E :=
  fun s hs => h s hs

theorem Triple.set {s' : σ} {Q : PUnit → σ → Prop} (h : ∀ s, P s → Q ⟨⟩ s') :
    Triple P (set s' : EStateM ε σ PUnit) Q E :=
  fun s hs => h s hs

theorem Triple.ite {c : Prop} [Decidable c] {m' : EStateM ε σ α}
    (ht : c → Triple P m Q E) (hf : ¬c → Triple P m' Q E) :
    Triple P (if c then m else m') Q E := by
  by_cases h : c
  · rw [if_pos h]
    exact ht h
  · rw [if_neg h]
    exact hf h

theorem Triple.ite_not {b : Bool} {n : EStateM ε σ α} (hm : b = false → Triple P m Q E)
    (hn : b = true → Triple P n Q E) : Triple P (if !b then m else n) Q E := by
  cases b with
  | false => exact hm rfl
  | true => exact hn rfl

theorem Triple.forM {f : β → EStateM ε σ PUnit} {E : ε → σ → Prop} (l : List β)
    (h : ∀ b ∈ l, Triple P (f b) (fun _ => P) E) : Triple P (l.forM f) (fun _ => P) E := by
  induction l with
  | nil => exact .pure fun _ => id
  | cons b l ih =>
    exact .bind (h b List.mem_cons_self) fun _ =>
      ih fun b' hb' => h b' (List.mem_cons_of_mem b hb')

theorem Triple.run {s : σ} (h : Triple (fun t => t = s) m Q E) :
    match m s with
    | .ok a t => Q a t
    | .error e t => E e t :=
  h s rfl

end Utsuite.Hoare
