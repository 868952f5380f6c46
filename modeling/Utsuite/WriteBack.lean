import Mathlib.Logic.Function.Basic

namespace Utsuite.WriteBack

variable {κ ω : Type*}

/-- A line of the cache. A clean one shows what is below it, and a fresh one is not there below. -/
structure Line (ω : Type*) where
  value : ω
  dirty : Bool
  fresh : Bool

abbrev Layer (κ ω : Type*) := κ → Option (Line ω)

def shown (line : Option (Line ω)) (under : ω) : ω := line.elim under Line.value

def see (under : κ → ω) : List (Layer κ ω) → κ → ω
  | [], k => under k
  | layer :: below, k => shown (layer k) (see under below k)

def seeAll (under : κ → ω) : List (Layer κ ω) → List (κ → ω)
  | [] => []
  | layer :: below => see under (layer :: below) :: seeAll under below

structure Agrees (blank : ω) (line : Line ω) (under : ω) : Prop where
  clean : line.dirty = false → line.value = under
  fresh : line.fresh = true → under = blank

def Sound (blank : ω) (under : κ → ω) : List (Layer κ ω) → Prop
  | [] => True
  | layer :: below =>
    (∀ k, ∀ line ∈ layer k, Agrees blank line (see under below k)) ∧ Sound blank under below

variable {blank : ω} {under under' : κ → ω} {layer own : Layer κ ω} {below below' : List (Layer κ ω)}

theorem seeAll_length (layers : List (Layer κ ω)) : (seeAll under layers).length = layers.length := by
  induction layers with
  | nil => rfl
  | cons layer below ih => exact congrArg Nat.succ ih

theorem see_eq_headD (layers : List (Layer κ ω)) :
    see under layers = (seeAll under layers).headD under := by
  cases layers <;> rfl

theorem see_congr (h : seeAll under below' = seeAll under below) :
    see under below' = see under below := by
  rw [see_eq_headD, h, ← see_eq_headD]

theorem Sound.cons_congr (h : Sound blank under (layer :: below)) (hbelow : Sound blank under' below')
    (hsee : see under' below' = see under below) : Sound blank under' (layer :: below') := by
  refine ⟨fun k line hline => ?_, hbelow⟩
  rw [hsee]
  exact h.1 k line hline

theorem see_cons_congr (hsee : see under' below' = see under below) :
    see under' (layer :: below') = see under (layer :: below) := by
  funext k
  rw [see, see, hsee]

theorem Sound.empty (h : Sound blank under below) :
    Sound blank under ((fun _ => none) :: below) := ⟨by nofun, h⟩

section

variable [DecidableEq κ] {k : κ} {line : Option (Line ω)}

theorem Sound.update (h : Sound blank under (layer :: below))
    (hline : ∀ l ∈ line, Agrees blank l (see under below k)) :
    Sound blank under (Function.update layer k line :: below) := by
  refine ⟨fun k' l hl => ?_, h.2⟩
  by_cases hk : k' = k
  · subst hk
    rw [Function.update_self] at hl
    exact hline l hl
  · rw [Function.update_of_ne hk] at hl
    exact h.1 k' l hl

theorem see_update : see under (Function.update layer k line :: below) =
    Function.update (see under (layer :: below)) k (shown line (see under below k)) := by
  funext k'
  by_cases hk : k' = k
  · subst hk
    rw [see, Function.update_self, Function.update_self]
  · rw [see, Function.update_of_ne hk, Function.update_of_ne hk, see]

end

open Classical in
/-- A line is written to the level below. A blank one that was never further down is dropped. -/
noncomputable def pushLine (blank : ω) : Option (Line ω) → Option (Line ω) → Option (Line ω)
  | none, own => own
  | some line, own =>
    if line.dirty then
      if (own.getD line).fresh ∧ line.value = blank then none
      else some ⟨line.value, true, (own.getD line).fresh⟩
    else own

noncomputable def push (blank : ω) (layer own : Layer κ ω) : Layer κ ω :=
  fun k => pushLine blank (layer k) (own k)

section

variable (line : Line ω) (found : Option (Line ω))

theorem pushLine_clean (h : ¬line.dirty = true) : pushLine blank (some line) found = found := if_neg h

theorem pushLine_drop (hdirty : line.dirty = true)
    (h : (found.getD line).fresh = true ∧ line.value = blank) :
    pushLine blank (some line) found = none := by
  rw [pushLine, if_pos hdirty, if_pos h]

theorem pushLine_keep (hdirty : line.dirty = true)
    (h : ¬((found.getD line).fresh = true ∧ line.value = blank)) :
    pushLine blank (some line) found = some ⟨line.value, true, (found.getD line).fresh⟩ := by
  rw [pushLine, if_pos hdirty, if_neg h]

end

theorem pushLine_agrees {line own : Option (Line ω)} {u : ω}
    (hline : ∀ l ∈ line, Agrees blank l (shown own u)) (hown : ∀ l ∈ own, Agrees blank l u) :
    (∀ l ∈ pushLine blank line own, Agrees blank l u) ∧
      shown (pushLine blank line own) u = shown line (shown own u) := by
  cases line with
  | none => exact ⟨hown, rfl⟩
  | some line =>
    have hl := hline line rfl
    -- A fresh line has nothing under it, whichever of the two it is.
    have hfresh : (own.getD line).fresh = true → u = blank := by
      cases own with
      | none => exact hl.fresh
      | some us => exact (hown us rfl).fresh
    by_cases hdirty : line.dirty = true
    · by_cases hdrop : (own.getD line).fresh = true ∧ line.value = blank
      · rw [pushLine_drop line own hdirty hdrop]
        exact ⟨by nofun, (hfresh hdrop.1).trans hdrop.2.symm⟩
      · rw [pushLine_keep line own hdirty hdrop]
        refine ⟨fun l hmem => ?_, rfl⟩
        obtain rfl := Option.some.inj hmem
        exact ⟨by nofun, hfresh⟩
    · rw [pushLine_clean line own hdirty]
      exact ⟨hown, (hl.clean (Bool.eq_false_iff.mpr hdirty)).symm⟩

theorem Sound.push (h : Sound blank under (layer :: own :: below)) :
    Sound blank under (push blank layer own :: below) :=
  ⟨fun k => (pushLine_agrees (h.1 k) (h.2.1 k)).1, h.2.2⟩

theorem see_push (h : Sound blank under (layer :: own :: below)) :
    see under (push blank layer own :: below) = see under (layer :: own :: below) :=
  funext fun k => (pushLine_agrees (h.1 k) (h.2.1 k)).2

def settle (layer : Layer κ ω) (under : κ → ω) : κ → ω := fun k =>
  match layer k with
  | some line => if line.dirty then line.value else under k
  | none => under k

theorem settle_eq (h : Sound blank under [layer]) : settle layer under = see under [layer] := by
  funext k
  have hagrees := h.1 k
  rw [settle, see]
  cases hline : layer k with
  | none => rfl
  | some line =>
    by_cases hdirty : line.dirty = true
    · exact if_pos hdirty
    · have hclean := (hagrees line hline).clean (Bool.eq_false_iff.mpr hdirty)
      exact (if_neg hdirty).trans hclean.symm

end Utsuite.WriteBack
