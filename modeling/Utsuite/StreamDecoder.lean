import Mathlib.Data.List.Basic

namespace Utsuite.StreamDecoder

open List

variable {α β : Type}

inductive Front (β : Type)
  | more
  | bad
  | item (value : β) (size : Nat)

/-- A decoder for a stream of bytes. An item at the front is not empty, and it stays the same when
more bytes arrive behind it. -/
structure Decoder (α β : Type) where
  front : List α → Front β
  item_size : ∀ {xs v n}, front xs = .item v n → 0 < n ∧ n ≤ xs.length
  item_append : ∀ {xs v n} (ys : List α), front xs = .item v n → front (xs ++ ys) = .item v n

def drain (d : Decoder α β) (xs : List α) : List β × List α :=
  match _h : d.front xs with
  | .more | .bad => ([], xs)
  | .item v n => (v :: (drain d (xs.drop n)).1, (drain d (xs.drop n)).2)
termination_by xs.length
decreasing_by
  all_goals
    have hn := d.item_size _h
    simp only [List.length_drop]
    omega

theorem drain_of_item (d : Decoder α β) (h : d.front xs = .item v n) :
    drain d xs = (v :: (drain d (xs.drop n)).1, (drain d (xs.drop n)).2) := by
  rw [drain]
  split
  · simp_all
  · simp_all
  · rename_i h'
    rw [h] at h'
    cases h'
    rfl

theorem drain_of_bad (d : Decoder α β) (h : d.front xs = .bad) : drain d xs = ([], xs) := by
  rw [drain]
  split <;> simp_all

theorem drain_of_more (d : Decoder α β) (h : d.front xs = .more) : drain d xs = ([], xs) := by
  rw [drain]
  split <;> simp_all

theorem drain_nil (d : Decoder α β) : drain d [] = ([], []) := by
  cases h : d.front [] with
  | more => exact drain_of_more d h
  | bad => exact drain_of_bad d h
  | item v n =>
    have := d.item_size h
    simp only [length_nil] at this
    omega

theorem drain_append (d : Decoder α β) (xs ys : List α) :
    drain d (xs ++ ys) =
      ((drain d xs).1 ++ (drain d ((drain d xs).2 ++ ys)).1, (drain d ((drain d xs).2 ++ ys)).2) := by
  induction hn : xs.length using Nat.strongRecOn generalizing xs with
  | ind n ih =>
    cases h : d.front xs with
    | more => simp [drain_of_more d h]
    | bad => simp [drain_of_bad d h]
    | item v k =>
      have hk := d.item_size h
      have hdrop : (xs ++ ys).drop k = xs.drop k ++ ys := drop_append_of_le_length hk.2
      have hlt : (xs.drop k).length < n := by
        rw [length_drop, ← hn]
        omega
      rw [drain_of_item d (d.item_append ys h), drain_of_item d h, hdrop, ih _ hlt _ rfl]
      simp

def feed (d : Decoder α β) (buf : List α) : List (List α) → List β × List α
  | [] => ([], buf)
  | c :: cs =>
    let r := drain d (buf ++ c)
    let t := feed d r.2 cs
    (r.1 ++ t.1, t.2)

theorem drain_feed (d : Decoder α β) (buf : List α) (cs : List (List α)) (hbuf : drain d buf = ([], buf)) :
    feed d buf cs = drain d (buf ++ cs.flatten) := by
  induction cs generalizing buf with
  | nil => simp [feed, hbuf]
  | cons c cs ih =>
    have hrest : drain d (drain d (buf ++ c)).2 = ([], (drain d (buf ++ c)).2) := by
      have h := drain_append d (buf ++ c) []
      simp only [append_nil] at h
      have h1 := congrArg Prod.fst h
      have h2 := congrArg Prod.snd h
      simp only [self_eq_append_right] at h1
      exact Prod.ext h1 h2.symm
    rw [flatten_cons, ← append_assoc, drain_append d (buf ++ c), feed, ih _ hrest]

theorem feed_nil (d : Decoder α β) (cs : List (List α)) : feed d [] cs = drain d cs.flatten := by
  simpa using drain_feed d [] cs (drain_nil d)

theorem drain_encoded (d : Decoder α β) (encode : β → List α) (ok : β → Prop)
    (hdec : ∀ v, ok v → ∀ rest, d.front (encode v ++ rest) = .item v (encode v).length)
    (vs : List β) (hok : ∀ v ∈ vs, ok v) (rest : List α) :
    drain d ((vs.map encode).flatten ++ rest) = (vs ++ (drain d rest).1, (drain d rest).2) := by
  induction vs with
  | nil => simp
  | cons v vs ih =>
    have hv := hdec v (hok v (by simp)) ((vs.map encode).flatten ++ rest)
    rw [map_cons, flatten_cons, append_assoc, drain_of_item d hv, drop_left,
      ih (fun w hw => hok w (by simp [hw]))]
    rfl

end Utsuite.StreamDecoder
