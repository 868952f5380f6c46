import Utsuite.Transitions

namespace Utsuite.Interleaving

open Transitions List Function

variable {σ ε α β ι : Type}

inductive Prog (σ ε α : Type) : Type 1
  | ret (a : α)
  | fail (e : ε)
  | act {β : Type} (f : σ → Except ε (β × σ)) (k : β → Prog σ ε α)

namespace Prog

def bind : Prog σ ε α → (α → Prog σ ε β) → Prog σ ε β
  | ret a, g => g a
  | fail e, _ => fail e
  | act f k, g => act f fun b => bind (k b) g

instance : Monad (Prog σ ε) where
  pure := ret
  bind := bind

def atomic (f : σ → Except ε (α × σ)) : Prog σ ε α := act f ret

def read (f : σ → α) : Prog σ ε α := atomic fun s => .ok (f s, s)

def ofExcept : Except ε α → Prog σ ε α
  | .ok a => ret a
  | .error e => fail e

def step : Prog σ ε α → σ → Option (Prog σ ε α × σ)
  | act f k, s =>
    match f s with
    | .ok (b, s') => some (k b, s')
    | .error e => some (fail e, s)
  | _, _ => none

end Prog

inductive Side
  | left
  | right
  deriving DecidableEq

def Side.other : Side → Side
  | left => right
  | right => left

theorem Side.eq_other_of_ne {side side' : Side} (h : side' ≠ side) : side' = side.other := by
  cases side <;> cases side' <;> first | rfl | exact absurd rfl h

/-- What holds at all times, and what the steps of either side may do to the state. -/
structure Protocol (σ : Type) where
  inv : σ → Prop
  guar : Side → σ → σ → Prop
  guar_refl : ∀ side s, guar side s s

namespace Protocol

def Stable (T : Protocol σ) (side : Side) (P : σ → Prop) : Prop :=
  ∀ s s', T.inv s → T.inv s' → T.guar side.other s s' → P s → P s'

/-- Every action from here on succeeds and keeps the protocol, whatever the other side does in
between, and the result satisfies `Q`. -/
def ObeysFrom (T : Protocol σ) (side : Side) (Q : α → σ → Prop) : Prog σ ε α → σ → Prop
  | .ret a, s => Q a s
  | .fail _, _ => False
  | .act f k, s => ∃ b s', f s = .ok (b, s') ∧ T.guar side s s' ∧ T.inv s' ∧
      ∃ P, T.Stable side P ∧ P s' ∧ ∀ t, T.inv t → P t → ObeysFrom T side Q (k b) t

def Obeys (T : Protocol σ) (side : Side) (Q : α → σ → Prop) (m : Prog σ ε α) (P : σ → Prop) : Prop :=
  ∀ s, T.inv s → P s → T.ObeysFrom side Q m s

def Yields (T : Protocol σ) (P : σ → Prop) : Prog σ ε α → α → Prop
  | .ret a, v => a = v
  | .fail _, _ => False
  | .act f k, v => ∃ b, (∀ s, T.inv s → P s → f s = .ok (b, s)) ∧ Yields T P (k b) v

variable {T : Protocol σ} {side : Side} {P P' : σ → Prop} {Q Q' : α → σ → Prop}

theorem Stable.exists {γ : Type*} {P : γ → σ → Prop} (h : ∀ c, T.Stable side (P c)) :
    T.Stable side fun s => ∃ c, P c s :=
  fun s s' hs hs' hguar ⟨c, hp⟩ => ⟨c, h c s s' hs hs' hguar hp⟩

theorem Stable.const (φ : Prop) : T.Stable side fun _ => φ := fun _ _ _ _ _ h => h

theorem Stable.and (h : T.Stable side P) (h' : T.Stable side P') :
    T.Stable side fun s => P s ∧ P' s :=
  fun s s' hs hs' hguar hp => ⟨h s s' hs hs' hguar hp.1, h' s s' hs hs' hguar hp.2⟩

theorem Obeys.of_exists {γ : Type*} {m : Prog σ ε α} {P : γ → σ → Prop}
    (h : ∀ c, T.Obeys side Q m (P c)) : T.Obeys side Q m fun s => ∃ c, P c s :=
  fun s hs ⟨c, hp⟩ => h c s hs hp

theorem Obeys.of_and (h : φ → T.Obeys side Q m P) : T.Obeys side Q m fun s => φ ∧ P s :=
  fun s hs hp => h hp.1 s hs hp.2

theorem ObeysFrom.bind {m : Prog σ ε α} {g : α → Prog σ ε β} {Q' : β → σ → Prop} {s : σ}
    (hs : T.inv s) (h : T.ObeysFrom side Q m s) (hg : ∀ a, T.Obeys side Q' (g a) (Q a)) :
    T.ObeysFrom side Q' (m >>= g) s := by
  induction m generalizing s with
  | ret a => exact hg a s hs h
  | fail e => exact h
  | act f k ih =>
    obtain ⟨b, s', hf, hguar, hinv, P', hst, hp', hk⟩ := h
    exact ⟨b, s', hf, hguar, hinv, P', hst, hp', fun t ht hp => ih b ht (hk t ht hp)⟩

theorem Obeys.bind {m : Prog σ ε α} {g : α → Prog σ ε β} {Q' : β → σ → Prop}
    (h : T.Obeys side Q m P) (hg : ∀ a, T.Obeys side Q' (g a) (Q a)) :
    T.Obeys side Q' (m >>= g) P :=
  fun s hs hp => (h s hs hp).bind hs hg

theorem Obeys.ret (h : ∀ s, T.inv s → P s → Q a s) : T.Obeys side Q (pure a : Prog σ ε α) P := h

theorem Obeys.atomic {f : σ → Except ε (α × σ)} (hst : ∀ a, T.Stable side (Q a))
    (h : ∀ s, T.inv s → P s → ∃ a s', f s = .ok (a, s') ∧ T.guar side s s' ∧ T.inv s' ∧ Q a s') :
    T.Obeys side Q (Prog.atomic f) P := by
  intro s hs hp
  obtain ⟨a, s', hf, hguar, hinv, hq⟩ := h s hs hp
  exact ⟨a, s', hf, hguar, hinv, Q a, hst a, hq, fun _ _ hq => hq⟩

theorem Obeys.read {f : σ → α} (hst : ∀ a, T.Stable side (Q a))
    (h : ∀ s, T.inv s → P s → Q (f s) s) : T.Obeys side Q (Prog.read f : Prog σ ε α) P :=
  .atomic hst fun s hs hp => ⟨f s, s, rfl, T.guar_refl side s, hs, h s hs hp⟩

theorem Yields.obeys {m : Prog σ ε α} {v : α} (h : T.Yields P m v) (hst : T.Stable side P) :
    T.Obeys side (fun a s => a = v ∧ P s) m P := by
  induction m with
  | ret a => exact fun s _ hp => ⟨h, hp⟩
  | fail e => exact h.elim
  | act f k ih =>
    obtain ⟨b, hf, hk⟩ := h
    exact fun s hs hp => ⟨b, s, hf s hs hp, T.guar_refl side s, hs, P, hst, hp, ih b hk⟩

theorem Yields.then {m : Prog σ ε α} {v : α} {g : α → Prog σ ε β} {Q' : β → σ → Prop}
    (h : T.Yields P m v) (hst : T.Stable side P) (hg : T.Obeys side Q' (g v) P) :
    T.Obeys side Q' (m >>= g) P := by
  refine (h.obeys hst).bind fun a s hs hp => ?_
  obtain ⟨rfl, hp⟩ := hp
  exact hg s hs hp

theorem Yields.bind {m : Prog σ ε α} {v : α} {g : α → Prog σ ε β} {w : β} (h : T.Yields P m v)
    (hg : T.Yields P (g v) w) : T.Yields P (m >>= g) w := by
  induction m with
  | ret a =>
    obtain rfl : a = v := h
    exact hg
  | fail e => exact h.elim
  | act f k ih =>
    obtain ⟨b, hf, hk⟩ := h
    exact ⟨b, hf, ih b hk⟩

theorem Yields.read (h : ∀ s, T.inv s → P s → f s = v) :
    T.Yields P (Prog.read f : Prog σ ε α) v :=
  ⟨v, fun s hs hp => congrArg (fun a => Except.ok (a, s)) (h s hs hp), rfl⟩

theorem Yields.atomic {f : σ → Except ε (α × σ)} {v : α}
    (h : ∀ s, T.inv s → P s → f s = .ok (v, s)) : T.Yields P (Prog.atomic f) v :=
  ⟨v, h, rfl⟩

theorem Yields.ofExcept (h : e = .ok v) : T.Yields P (Prog.ofExcept e) v := by
  rw [h]
  rfl

end Protocol

structure Config (σ ε α : Type) where
  shared : σ
  thread : Side → Option (Prog σ ε α)
  returned : Side → List α

structure Calls (σ ε α ι : Type) where
  side : ι → Side
  body : ι → Prog σ ε α

inductive Label (ι : Type)
  | call (i : ι)
  | step (side : Side)

inductive ThreadStep (side : Side) (c : Config σ ε α) : Config σ ε α → Prop
  | returns (a : α) (h : c.thread side = some (.ret a)) :
      ThreadStep side c { c with
        thread := update c.thread side none
        returned := update c.returned side (c.returned side ++ [a]) }
  | acts (p q : Prog σ ε α) (s' : σ) (h : c.thread side = some p) (hstep : p.step c.shared = some (q, s')) :
      ThreadStep side c { c with shared := s', thread := update c.thread side (some q) }

def threads (calls : Calls σ ε α ι) (start : Set σ) : System (Config σ ε α) (Label ι) where
  start := {c | c.shared ∈ start ∧ (c.thread = fun _ => none) ∧ c.returned = fun _ => []}
  next c l c' := match l with
    | .call i => c.thread (calls.side i) = none ∧
        c' = { c with thread := update c.thread (calls.side i) (some (calls.body i)) }
    | .step side => ThreadStep side c c'

def advance (calls : Calls σ ε α ι) (c : Config σ ε α) : Label ι → Option (Config σ ε α)
  | .call i => match c.thread (calls.side i) with
      | none => some { c with
          thread := update c.thread (calls.side i) (some (calls.body i)) }
      | some _ => none
  | .step side => match c.thread side with
      | none => none
      | some (.ret a) => some { c with
          thread := update c.thread side none
          returned := update c.returned side (c.returned side ++ [a]) }
      | some p => (p.step c.shared).map fun next =>
        { c with shared := next.2, thread := update c.thread side (some next.1) }

theorem next_of_advance (h : advance calls c l = some c') : (threads calls start).next c l c' := by
  cases l with
  | call i =>
    rw [advance] at h
    split at h
    · next hnone => exact ⟨hnone, (Option.some.inj h).symm⟩
    · cases h
  | step side =>
    rw [advance] at h
    split at h
    · cases h
    · next a hret =>
        cases h
        exact .returns a hret
    · next p _ hp =>
        obtain ⟨next, hstep, rfl⟩ := Option.map_eq_some_iff.mp h
        exact .acts p next.1 next.2 hp hstep

theorem reach_of_schedule {calls : Calls σ ε α ι} {start : Set σ} {ok : Label ι → Prop}
    {c c' : Config σ ε α} {schedule : List (Label ι)}
    (hc : Reach ((threads calls start).under fun _ l => ok l) c) (hok : ∀ l ∈ schedule, ok l)
    (h : schedule.foldlM (advance calls) c = some c') :
    Reach ((threads calls start).under fun _ l => ok l) c' := by
  induction schedule generalizing c with
  | nil => exact Option.some.inj h ▸ hc
  | cons l schedule ih =>
    rw [foldlM_cons] at h
    obtain ⟨c₁, hc₁, hrest⟩ := Option.bind_eq_some_iff.mp h
    have hreach := hc.step ⟨hok l mem_cons_self, next_of_advance hc₁⟩
    exact ih hreach (fun l' hl' => hok l' (mem_cons_of_mem _ hl')) hrest

section

variable (T : Protocol σ) (idle : Side → σ → Prop) (Q : Side → α → σ → Prop)

def ThreadOk (side : Side) (s : σ) : Option (Prog σ ε α) → Prop
  | none => idle side s
  | some p => ∃ P, T.Stable side P ∧ P s ∧ T.Obeys side (fun a s => Q side a s ∧ idle side s) p P

structure Sound (c : Config σ ε α) : Prop where
  inv : T.inv c.shared
  thread : ∀ side, ThreadOk T idle Q side c.shared (c.thread side)
  returned : ∀ side, ∀ a ∈ c.returned side, Q side a c.shared

variable {T idle Q}

theorem ThreadOk.stable (hidle : ∀ side, T.Stable side (idle side)) (h : ThreadOk T idle Q side s p)
    (hs : T.inv s) (hs' : T.inv s') (hguar : T.guar side.other s s') :
    ThreadOk T idle Q side s' p := by
  cases p with
  | none => exact hidle side s s' hs hs' hguar h
  | some p =>
    obtain ⟨P, hst, hp, hobeys⟩ := h
    exact ⟨P, hst, hst s s' hs hs' hguar hp, hobeys⟩

theorem Sound.step (hidle : ∀ side, T.Stable side (idle side))
    (hQ : ∀ side a side' s s', T.inv s → T.inv s' → T.guar side' s s' → Q side a s → Q side a s')
    (h : Sound T idle Q c) (hstep : ThreadStep side c c') : Sound T idle Q c' := by
  have hown := h.thread side
  cases hstep with
  | returns a hret =>
    rw [hret] at hown
    obtain ⟨P, _, hp, hobeys⟩ := hown
    have hpost := hobeys c.shared h.inv hp
    refine ⟨h.inv, ?_, ?_⟩
    · exact (forall_update_iff _ fun side' p => ThreadOk T idle Q side' c.shared p).mpr
        ⟨hpost.2, fun side' _ => h.thread side'⟩
    · refine (forall_update_iff _ fun side' as => ∀ b ∈ as, Q side' b c.shared).mpr
        ⟨fun b hb => ?_, fun side' _ => h.returned side'⟩
      obtain hb | hb := mem_append.mp hb
      · exact h.returned side b hb
      · obtain rfl := mem_singleton.mp hb
        exact hpost.1
  | acts p q s' hthread hp =>
    rw [hthread] at hown
    obtain ⟨P, _, hP, hobeys⟩ := hown
    obtain ⟨hguar, hinv, hok⟩ : T.guar side c.shared s' ∧ T.inv s' ∧
        ThreadOk T idle Q side s' (some q) := by
      cases p with
      | ret a => cases hp
      | fail e => cases hp
      | act f k =>
        obtain ⟨b, s₁, hf, hguar, hinv, hnext⟩ := hobeys c.shared h.inv hP
        rw [Prog.step, hf] at hp
        cases hp
        exact ⟨hguar, hinv, hnext⟩
    refine ⟨hinv, ?_, fun side' b hb => ?_⟩
    · refine (forall_update_iff _ fun side' p => ThreadOk T idle Q side' s' p).mpr
        ⟨hok, fun side' hside => ?_⟩
      obtain rfl : side = side'.other := Side.eq_other_of_ne (Ne.symm hside)
      exact (h.thread side').stable hidle h.inv hinv hguar
    · exact hQ side' b side c.shared s' h.inv hinv hguar (h.returned side' b hb)

theorem reach_sound {calls : Calls σ ε α ι} {start : Set σ} {ok : ι → Prop}
    (hstart : ∀ s ∈ start, T.inv s ∧ ∀ side, idle side s)
    (hidle : ∀ side, T.Stable side (idle side))
    (hQ : ∀ side a side' s s', T.inv s → T.inv s' → T.guar side' s s' → Q side a s → Q side a s')
    (hbody : ∀ i, ok i → T.Obeys (calls.side i) (fun a s => Q (calls.side i) a s ∧ idle (calls.side i) s)
      (calls.body i) (idle (calls.side i)))
    {c : Config σ ε α}
    (h : Reach ((threads calls start).under fun _ l => ∀ i, l = .call i → ok i) c) :
    Sound T idle Q c := by
  refine h.invariant (fun c hc => ?_) fun c l c' hc hnext => ?_
  · obtain ⟨hshared, hthread, hreturned⟩ := hc
    obtain ⟨hinv, hall⟩ := hstart c.shared hshared
    refine ⟨hinv, fun side => ?_, fun side a ha => ?_⟩
    · rw [hthread]
      exact hall side
    · rw [hreturned] at ha
      cases ha
  · obtain ⟨hok, hnext⟩ := hnext
    cases l with
    | step side => exact hc.step hidle hQ hnext
    | call i =>
      obtain ⟨hnone, rfl⟩ := hnext
      refine ⟨hc.inv, ?_, hc.returned⟩
      refine (forall_update_iff _ fun side p => ThreadOk T idle Q side c.shared p).mpr
        ⟨?_, fun side _ => hc.thread side⟩
      have hown := hc.thread (calls.side i)
      rw [hnone] at hown
      exact ⟨_, hidle _, hown, hbody i (hok i rfl)⟩

theorem Sound.not_failed (h : Sound T idle Q c) (side : Side) (e : ε) :
    c.thread side ≠ some (.fail e) := by
  intro hfail
  have hown := h.thread side
  rw [hfail] at hown
  obtain ⟨P, _, hp, hobeys⟩ := hown
  exact hobeys c.shared h.inv hp

end

end Utsuite.Interleaving
