import Mathlib.Data.Finset.Basic

namespace Utsuite.EdgeComponents

open List

variable {α : Type} {E P P' : Set (Finset α)} {g M : Finset α} {a b : α}

def Joined (E : Set (Finset α)) (a b : α) : Prop := ∃ e ∈ E, a ∈ e ∧ b ∈ e

def Linked (E : Set (Finset α)) : α → α → Prop := Relation.TransGen (Joined E)

theorem Linked.symm (h : Linked E a b) : Linked E b a := by
  induction h with
  | single h =>
    obtain ⟨e, he, ha, hb⟩ := h
    exact .single ⟨e, he, hb, ha⟩
  | tail _ h ih =>
    obtain ⟨e, he, hc, hb⟩ := h
    exact .head ⟨e, he, hb, hc⟩ ih

theorem Linked.mono (hE : E ⊆ E') (h : Linked E a b) : Linked E' a b :=
  Relation.TransGen.mono (fun _ _ ⟨e, he, hab⟩ => ⟨e, hE he, hab⟩ : Joined E ≤ Joined E') a b h

structure Components (E P : Set (Finset α)) : Prop where
  nonempty : ∀ S ∈ P, S.Nonempty
  eq_of_mem : ∀ S ∈ P, ∀ T ∈ P, ∀ a, a ∈ S → a ∈ T → S = T
  covers : ∀ e ∈ E, ∃ S ∈ P, e ⊆ S
  linked : ∀ S ∈ P, ∀ a ∈ S, ∀ b ∈ S, Linked E a b

namespace Components

theorem empty : Components (∅ : Set (Finset α)) ∅ where
  nonempty _ h := h.elim
  eq_of_mem _ h := h.elim
  covers _ h := h.elim
  linked _ h := h.elim

theorem same_iff (h : Components E P) : (∃ S ∈ P, a ∈ S ∧ b ∈ S) ↔ Linked E a b := by
  constructor
  · rintro ⟨S, hS, ha, hb⟩
    exact h.linked S hS a ha b hb
  · intro hab
    induction hab with
    | single hab =>
      obtain ⟨e, he, ha, hb⟩ := hab
      obtain ⟨S, hS, hsub⟩ := h.covers e he
      exact ⟨S, hS, hsub ha, hsub hb⟩
    | tail _ hcb ih =>
      -- the edge leads on within the component that the chain has reached
      obtain ⟨S, hS, ha, hc⟩ := ih
      obtain ⟨e, he, hce, hbe⟩ := hcb
      obtain ⟨T, hT, hsub⟩ := h.covers e he
      obtain rfl := h.eq_of_mem S hS T hT _ hc (hsub hce)
      exact ⟨S, hS, ha, hsub hbe⟩

theorem mem_iff (h : Components E P) : (∃ S ∈ P, a ∈ S) ↔ ∃ e ∈ E, a ∈ e := by
  constructor
  · rintro ⟨S, hS, ha⟩
    have hlink := h.linked S hS a ha a ha
    obtain ⟨c, ⟨e, he, hae, -⟩, -⟩ := Relation.TransGen.head'_iff.mp hlink
    exact ⟨e, he, hae⟩
  · rintro ⟨e, he, ha⟩
    obtain ⟨S, hS, hsub⟩ := h.covers e he
    exact ⟨S, hS, hsub ha⟩

theorem disjoint (h : Components E P) (hS : S ∈ P) (hT : T ∈ P) (hne : S ≠ T) : Disjoint S T :=
  Finset.disjoint_left.mpr fun a ha hb => hne (h.eq_of_mem S hS T hT a ha hb)

theorem insert (h : Components E P) (hg : g.Nonempty)
    (hM : ∀ a, a ∈ M ↔ a ∈ g ∨ ∃ S ∈ P, (∃ c ∈ S, c ∈ g) ∧ a ∈ S)
    (hP' : ∀ S, S ∈ P' ↔ S = M ∨ (S ∈ P ∧ ∀ c ∈ S, c ∉ g)) :
    Components (insert g E) P' := by
  have hsub : E ⊆ Insert.insert g E := Set.subset_insert g E
  have hgM : g ⊆ M := fun a ha => (hM a).mpr (Or.inl ha)
  -- a component that was not met shares no point with the merged one
  have hapart : ∀ S ∈ P, (∀ c ∈ S, c ∉ g) → ∀ a ∈ S, a ∉ M := by
    intro S hS hmiss a ha haM
    rcases (hM a).mp haM with hag | ⟨T, hT, ⟨c, hcT, hcg⟩, haT⟩
    · exact hmiss a ha hag
    · obtain rfl := h.eq_of_mem S hS T hT a ha haT
      exact hmiss c hcT hcg
  refine ⟨?_, ?_, ?_, ?_⟩
  · intro S hS
    rcases (hP' S).mp hS with rfl | ⟨hS, -⟩
    · exact hg.mono hgM
    · exact h.nonempty S hS
  · intro S hS T hT a haS haT
    rcases (hP' S).mp hS with rfl | ⟨hS, hmissS⟩
    · rcases (hP' T).mp hT with rfl | ⟨hT, hmissT⟩
      · rfl
      · exact absurd haS (hapart T hT hmissT a haT)
    · rcases (hP' T).mp hT with rfl | ⟨hT, -⟩
      · exact absurd haT (hapart S hS hmissS a haS)
      · exact h.eq_of_mem S hS T hT a haS haT
  · intro e he
    rcases Set.mem_insert_iff.mp he with rfl | he
    · exact ⟨M, (hP' M).mpr (Or.inl rfl), hgM⟩
    · obtain ⟨S, hS, heS⟩ := h.covers e he
      by_cases hmeet : ∃ c ∈ S, c ∈ g
      · refine ⟨M, (hP' M).mpr (Or.inl rfl), fun a ha => ?_⟩
        exact (hM a).mpr (Or.inr ⟨S, hS, hmeet, heS ha⟩)
      · refine ⟨S, (hP' S).mpr (Or.inr ⟨hS, fun c hc hcg => hmeet ⟨c, hc, hcg⟩⟩), heS⟩
  · intro S hS a ha b hb
    rcases (hP' S).mp hS with rfl | ⟨hS, -⟩
    · -- every point of the merged component is linked with the points of the edge
      have hto : ∀ a ∈ S, ∀ c ∈ g, Linked (Insert.insert g E) a c := by
        intro a ha c hc
        rcases (hM a).mp ha with hag | ⟨T, hT, ⟨d, hdT, hdg⟩, haT⟩
        · exact .single ⟨g, Set.mem_insert g E, hag, hc⟩
        · exact Relation.TransGen.tail ((h.linked T hT a haT d hdT).mono hsub)
            ⟨g, Set.mem_insert g E, hdg, hc⟩
      obtain ⟨c, hc⟩ := hg
      exact Relation.TransGen.trans (hto a ha c hc) (hto b hb c hc).symm
    · exact (h.linked S hS a ha b hb).mono hsub

end Components

end Utsuite.EdgeComponents
