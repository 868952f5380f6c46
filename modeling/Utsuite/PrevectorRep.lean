import Mathlib.Algebra.Order.Group.Nat
import Mathlib.Data.List.Induction
import Utsuite.Prevector

namespace Utsuite.PrevectorRep

open CellArray Prevector List

variable {T : Type} {N : Nat}

/-- The size that `_size` stands for in the storage in use. On the heap it is counted from `N + 1`
on. -/
inductive Shape (N : Nat) : prevector T → Nat → Cells T → Prop
  | direct {n : Nat} {cells : Cells T} (hlen : cells.length = N) (hn : n ≤ N) :
      Shape N ⟨n, .direct cells⟩ n cells
  | indirect {n : Nat} {cells : Cells T} (hn : n ≤ cells.length) (hsmall : n < 2 ^ 31)
      (hN : N < 2 ^ 31) : Shape N ⟨n + N + 1, .indirect cells.length cells⟩ n cells

def Rep (N : Nat) (v : prevector T) (xs : List T) (c : Nat) : Prop :=
  ∃ rest, xs.length + rest.length = c ∧ Shape N v xs.length (filled xs ++ rest)

theorem wadd_eq (h : a + b < 2 ^ 32) : wadd a b = a + b := Nat.mod_eq_of_lt h

theorem wsub_eq (hb : b ≤ a) (ha : a < 2 ^ 32) : wsub a b = a - b := by
  rw [wsub, Int.emod_eq_of_lt (by omega) (by omega)]
  omega

namespace Shape

variable {v : prevector T} {n : Nat} {cells : Cells T}

theorem isDirect_direct (hn : n ≤ N) : isDirect N (⟨n, union⟩ : prevector T) = true := decide_eq_true hn

theorem isDirect_indirect : isDirect N (⟨n + N + 1, union⟩ : prevector T) = false :=
  decide_eq_false (not_le.mpr (Nat.lt_succ_of_le (Nat.le_add_left N n)))

theorem size_eq (h : Shape N v n cells) : size N v = n := by
  cases h with
  | direct hlen hn => rw [size, isDirect_direct hn, if_pos rfl]
  | indirect hn hsmall hN =>
    have hword : wsub (wsub (n + N + 1) N) 1 = n := by
      have hinner : wsub (n + N + 1) N = n + 1 := by
        rw [wsub_eq (by omega) (by omega)]
        omega
      rw [hinner, wsub_eq (by omega) (by omega), Nat.add_sub_cancel]
    rw [size, isDirect_indirect, if_neg Bool.false_ne_true, hword]

theorem items_eq (h : Shape N v n cells) : items N v = .ok cells := by
  cases h with
  | direct hlen hn => rw [items, isDirect_direct hn]
  | indirect hn hsmall hN => rw [items, isDirect_indirect]

theorem capacity_eq (h : Shape N v n cells) : capacity N v = .ok cells.length := by
  cases h with
  | direct hlen hn => rw [capacity, isDirect_direct hn, hlen]
  | indirect hn hsmall hN => rw [capacity, isDirect_indirect]

theorem setItems (h : Shape N v n cells) (hlen' : cells'.length = cells.length) :
    Shape N (Prevector.setItems v cells') n cells' := by
  cases h with
  | direct hlen hn => exact .direct (hlen'.trans hlen) hn
  | indirect hn hsmall hN =>
    rw [Prevector.setItems, ← hlen']
    exact .indirect (hlen' ▸ hn) hsmall hN

theorem more (h : Shape N v n cells) (hroom : n + k ≤ cells.length) (hsmall : n + k < 2 ^ 31) :
    Shape N { v with _size := wadd v._size k } (n + k) cells := by
  cases h with
  | direct hlen hn =>
    have hword : wadd n k = n + k := wadd_eq (by omega)
    rw [hword]
    exact .direct hlen (hlen ▸ hroom)
  | indirect hn _ hN =>
    have hword : wadd (n + N + 1) k = n + k + N + 1 := by
      rw [wadd_eq (by omega)]
      omega
    rw [hword]
    exact .indirect hroom hsmall hN

theorem fewer (h : Shape N v n cells) (hk : k ≤ n) (hsmall : n < 2 ^ 31) :
    Shape N { v with _size := wsub v._size k } (n - k) cells := by
  cases h with
  | direct hlen hn =>
    have hword : wsub n k = n - k := wsub_eq hk (by omega)
    rw [hword]
    exact .direct hlen (le_trans (Nat.sub_le n k) hn)
  | indirect hn _ hN =>
    have hword : wsub (n + N + 1) k = n - k + N + 1 := by
      rw [wsub_eq (by omega) (by omega)]
      omega
    rw [hword]
    exact .indirect (le_trans (Nat.sub_le n k) hn) (by omega) hN

theorem construct (h : Shape N v n cells) (hcells : cells = left ++ cell :: right) (val : T) :
    ∃ v', Prevector.construct N v left.length val = .ok v' ∧
      Shape N v' n (left ++ some val :: right) := by
  refine ⟨Prevector.setItems v (left ++ some val :: right), ?_, h.setItems ?_⟩
  · rw [Prevector.construct, h.items_eq, hcells]
    change (inBounds (write _ _ val) >>= fun cells => .ok (Prevector.setItems v cells)) = _
    rw [write_middle]
    rfl
  · rw [hcells, length_append, length_append, length_cons, length_cons]

theorem countDown (h : Shape N v n cells) (hk : k ≤ n) (hsmall : n < 2 ^ 31) :
    Shape N (Prevector.countDown k v) (n - k) cells := by
  induction k generalizing v n with
  | zero => exact h
  | succ k ih =>
    have hrest := ih (h.fewer (Nat.le_of_add_left_le hk) hsmall) (by omega) (by omega)
    rw [Nat.sub_sub, add_comm 1 k] at hrest
    rw [Prevector.countDown]
    exact hrest

end Shape

namespace Rep

variable {v : prevector T} {xs : List T} {c : Nat}

theorem size_eq (h : Rep N v xs c) : size N v = xs.length := by
  obtain ⟨rest, -, hshape⟩ := h
  exact hshape.size_eq

theorem length_le (h : Rep N v xs c) : xs.length ≤ c := by
  obtain ⟨rest, hlen, -⟩ := h
  omega

theorem capacity_eq (h : Rep N v xs c) : capacity N v = .ok c := by
  obtain ⟨rest, hlen, hshape⟩ := h
  rw [hshape.capacity_eq, length_append, length_filled, hlen]

theorem capacity_cases (h : Rep N v xs c) : c = N ∨ N < 2 ^ 31 := by
  obtain ⟨rest, rfl, hshape⟩ := h
  cases hshape with
  | direct hlen hn =>
    rw [length_append, length_filled] at hlen
    exact .inl hlen
  | indirect hn hsmall hN => exact .inr hN

theorem direct (h : xs.length + rest.length = N) :
    Rep N ⟨xs.length, .direct (filled xs ++ rest)⟩ xs N := by
  refine ⟨rest, h, .direct ?_ (by omega)⟩
  rw [length_append, length_filled, h]

theorem indirect (h : xs.length + rest.length = c) (hsmall : xs.length < 2 ^ 31) (hN : N < 2 ^ 31) :
    Rep N ⟨xs.length + N + 1, .indirect c (filled xs ++ rest)⟩ xs c := by
  have hcells : (filled xs ++ rest).length = c := by
    rw [length_append, length_filled, h]
  refine ⟨rest, h, ?_⟩
  rw [← hcells]
  exact .indirect (by omega) hsmall hN

theorem new (N : Nat) : Rep N (.new N : prevector T) [] N :=
  direct (by rw [length_nil, length_replicate, zero_add])

theorem length_room (h : xs.length ≤ n) :
    xs.length + (blank (n - xs.length) : Cells T).length = n := by
  rw [length_blank]
  omega

theorem changeCapacity (h : Rep N v xs c) (hle : xs.length ≤ new_capacity)
    (hsmall : xs.length < 2 ^ 31) (hheap : N < new_capacity → N < 2 ^ 31) :
    ∃ v' c', Prevector.changeCapacity N v new_capacity = .ok v' ∧ Rep N v' xs c' ∧
      new_capacity ≤ c' := by
  have hsize := h.size_eq
  obtain ⟨rest, hlen, hshape⟩ := h
  have hitems := hshape.items_eq
  rw [Prevector.changeCapacity, hsize, hitems]
  by_cases hN : new_capacity ≤ N
  · rw [if_pos hN]
    have hroom := length_room (le_trans hle hN)
    cases hshape with
    | direct hlength hn =>
      rw [length_append, length_filled] at hlength
      rw [if_pos (Shape.isDirect_direct hn)]
      exact ⟨_, N, rfl, direct hlength, hN⟩
    | indirect hn _ hN' =>
      have hword : wsub (xs.length + N + 1) (wadd N 1) = xs.length := by
        rw [wadd_eq (by omega), wsub_eq (by omega) (by omega)]
        omega
      rw [if_neg (by rw [Shape.isDirect_indirect]; exact Bool.false_ne_true)]
      refine ⟨_, N, ?_, direct hroom, hN⟩
      change (inBounds (copy (blank N) _ _) >>= _) = _
      rw [copy_filled rest (le_trans hle hN), hword]
      rfl
  · have hbelow := hheap (Nat.lt_of_not_le hN)
    rw [if_neg hN]
    cases hshape with
    | direct hlength hn =>
      have hword : wadd xs.length (wadd N 1) = xs.length + N + 1 := by
        have hinner : wadd N 1 = N + 1 := wadd_eq (by omega)
        rw [hinner, wadd_eq (by omega)]
        rfl
      rw [if_pos (Shape.isDirect_direct hn)]
      refine ⟨_, new_capacity, ?_, indirect (length_room hle) hsmall hbelow, le_refl _⟩
      change (inBounds (copy (blank new_capacity) _ _) >>= _) = _
      rw [copy_filled rest hle, hword]
      rfl
    | indirect hn _ hN' =>
      obtain ⟨rest', hresized, hroom⟩ := resized_filled rest hle
      rw [if_neg (by rw [Shape.isDirect_indirect]; exact Bool.false_ne_true)]
      refine ⟨_, new_capacity, ?_, indirect hroom hsmall hbelow, le_refl _⟩
      change Except.ok (⟨_, .indirect _ (resized _ _)⟩ : prevector T) = _
      rw [hresized]

theorem ensureCapacity (h : Rep N v xs c) (hsmall : xs.length < 2 ^ 31) (hheap : N < n → N < 2 ^ 31)
    (hnew : n ≤ new_capacity) :
    ∃ v' c', Prevector.ensureCapacity N v n new_capacity = .ok v' ∧ Rep N v' xs c' ∧ n ≤ c' := by
  have hcapacity : Prevector.ensureCapacity N v n new_capacity =
      if c < n then Prevector.changeCapacity N v new_capacity else .ok v := by
    rw [Prevector.ensureCapacity, h.capacity_eq]
    rfl
  rw [hcapacity]
  split_ifs with hlt
  · have hN : N < 2 ^ 31 := by
      rcases h.capacity_cases with rfl | hN
      · exact hheap hlt
      · exact hN
    have hle : xs.length ≤ new_capacity := h.length_le.trans (hlt.le.trans hnew)
    obtain ⟨v', c', hv', hrep, hc'⟩ := h.changeCapacity hle hsmall fun _ => hN
    exact ⟨v', c', hv', hrep, le_trans hnew hc'⟩
  · exact ⟨v, c, rfl, h, Nat.le_of_not_lt hlt⟩

theorem append (h : Rep N v xs c) (hroom : xs.length < c) (hsmall : xs.length + 1 < 2 ^ 31)
    (val : T) : ∃ v', Prevector.append N v val = .ok v' ∧ Rep N v' (xs ++ [val]) c := by
  obtain ⟨rest, hlen, hshape⟩ := h
  cases rest with
  | nil => exact absurd hlen (ne_of_lt hroom)
  | cons cell rest =>
    rw [length_cons] at hlen
    have hmore := hshape.more (k := 1) (by
      rw [length_append, length_filled, length_cons]
      omega) hsmall
    obtain ⟨v', hv', hshape'⟩ := hmore.construct rfl val
    refine ⟨v', ?_, rest, ?_, ?_⟩
    · rw [Prevector.append, hmore.size_eq, wsub_eq (by omega) (by omega), Nat.add_sub_cancel]
      rwa [length_filled] at hv'
    · rw [length_append, length_singleton]
      omega
    · rw [length_append, filled_append, append_assoc]
      exact hshape'

theorem fill (h : Rep N v xs c) (hn : n ≤ c) (hsmall : n < 2 ^ 31)
    (hrounds : n ≤ xs.length + rounds) (val : T) :
    ∃ v', Prevector.fill N val n rounds v = .ok v' ∧
      Rep N v' (xs ++ replicate (n - xs.length) val) c := by
  induction rounds generalizing v xs with
  | zero =>
    rw [add_zero] at hrounds
    refine ⟨v, ?_, ?_⟩
    · rw [Prevector.fill, h.size_eq, if_neg (by omega)]
    · rw [Nat.sub_eq_zero_of_le hrounds, replicate_zero, append_nil]
      exact h
  | succ rounds ih =>
    rw [Prevector.fill, h.size_eq]
    split_ifs with hlt
    · obtain ⟨v₁, hv₁, h₁⟩ := h.append (by omega) (by omega) val
      obtain ⟨v', hv', h'⟩ := ih h₁ (by rw [length_append, length_singleton]; omega)
      refine ⟨v', ?_, ?_⟩
      · rw [hv₁]
        exact hv'
      · have hcount : n - xs.length = n - (xs ++ [val]).length + 1 := by
          rw [length_append, length_singleton]
          omega
        rw [hcount, replicate_succ]
        rwa [append_assoc] at h'
    · refine ⟨v, rfl, ?_⟩
      rw [Nat.sub_eq_zero_of_le (Nat.le_of_not_lt hlt), replicate_zero, append_nil]
      exact h

theorem appendAll (h : Rep N v xs c) (vals : List T) (hroom : xs.length + vals.length ≤ c)
    (hsmall : xs.length + vals.length < 2 ^ 31) :
    ∃ v', Prevector.appendAll N v vals = .ok v' ∧ Rep N v' (xs ++ vals) c := by
  induction vals generalizing v xs with
  | nil => exact ⟨v, rfl, by rwa [append_nil]⟩
  | cons val vals ih =>
    rw [length_cons] at hroom hsmall
    obtain ⟨v₁, hv₁, h₁⟩ := h.append (by omega) (by omega) val
    have hlen : (xs ++ [val]).length = xs.length + 1 := length_append
    obtain ⟨v', hv', h'⟩ := ih h₁ (by omega) (by omega)
    refine ⟨v', ?_, ?_⟩
    · rw [Prevector.appendAll, foldlM_cons, hv₁]
      exact hv'
    · rwa [append_assoc] at h'

theorem erase (h : Rep N v xs c) (hfirst : first ≤ last) (hlast : last ≤ xs.length)
    (hsmall : xs.length < 2 ^ 31) :
    ∃ v', Prevector.erase N v first last = .ok v' ∧ Rep N v' (xs.take first ++ xs.drop last) c := by
  obtain ⟨rest, hlen, hshape⟩ := h
  have hleft : (filled (xs.take first)).length = first := by
    rw [length_filled, length_take]
    omega
  have hgone : (filled ((xs.drop first).take (last - first))).length = last - first := by
    rw [length_filled, length_take, length_drop]
    omega
  have hmid : (filled (xs.drop last)).length = xs.length - last := by
    rw [length_filled, length_drop]
  have hcells : filled xs ++ rest = filled (xs.take first) ++
      (filled ((xs.drop first).take (last - first)) ++ (filled (xs.drop last) ++ rest)) := by
    have hdrop : xs.drop last = (xs.drop first).drop (last - first) := by
      rw [drop_drop, Nat.add_sub_cancel' hfirst]
    rw [← append_assoc (filled (take (last - first) _)), ← filled_append, hdrop,
      take_append_drop, ← append_assoc, ← filled_append, take_append_drop]
  obtain ⟨right, hright, hmove⟩ := move_down (filled (xs.take first))
    (filled ((xs.drop first).take (last - first))) (filled (xs.drop last)) rest
  rw [← hcells, hleft, hgone, hmid, Nat.add_sub_cancel' hfirst] at hmove
  have hlen' : (xs.take first ++ xs.drop last).length = xs.length - (last - first) := by
    rw [length_append, length_take, length_drop]
    omega
  refine ⟨setItems (countDown (last - first) v)
    (filled (xs.take first ++ xs.drop last) ++ right), ?_, right, by omega, ?_⟩
  · rw [Prevector.erase, hshape.items_eq, hshape.size_eq]
    change (inBounds (move _ _ _ _) >>= _) = _
    rw [hmove, filled_append, append_assoc]
    rfl
  · rw [hlen']
    refine (hshape.countDown (by omega) hsmall).setItems ?_
    rw [length_append, length_append, length_filled, length_filled]
    omega

theorem resize [Inhabited T] (h : Rep N v xs c) (hn : n < 2 ^ 31) (hsmall : xs.length < 2 ^ 31) :
    ∃ v' c', Prevector.resize N v n = .ok v' ∧
      Rep N v' (xs.take n ++ replicate (n - xs.length) default) c' ∧ n ≤ c' := by
  have htruncate : ∃ v₁, Prevector.truncate N v n = .ok v₁ ∧ Rep N v₁ (xs.take n) c := by
    rw [Prevector.truncate, h.size_eq]
    split_ifs with hlt
    · obtain ⟨v₁, hv₁, h₁⟩ := h.erase hlt.le le_rfl hsmall
      rw [drop_length, append_nil] at h₁
      exact ⟨v₁, hv₁, h₁⟩
    · rw [take_of_length_le (Nat.le_of_not_lt hlt)]
      exact ⟨v, rfl, h⟩
  obtain ⟨v₁, hv₁, h₁⟩ := htruncate
  obtain ⟨v₂, c', hv₂, h₂, hc'⟩ := h₁.ensureCapacity
    ((length_take_le n xs).trans_lt hn) (fun hN => hN.trans hn) le_rfl
  obtain ⟨v', hv', h'⟩ := h₂.fill hc' hn (Nat.le_add_left n _) default
  refine ⟨v', c', ?_, ?_, hc'⟩
  · rw [Prevector.resize, hv₁]
    change (Prevector.ensureCapacity N v₁ n n >>= _) = _
    rw [hv₂]
    exact hv'
  · have hcount : n - (xs.take n).length = n - xs.length := by
      rw [length_take]
      omega
    rwa [hcount] at h'

theorem clear [Inhabited T] (h : Rep N v xs c) (hsmall : xs.length < 2 ^ 31) :
    ∃ v' c', Prevector.clear N v = .ok v' ∧ Rep N v' [] c' := by
  obtain ⟨v', c', hv', h', -⟩ := h.resize (by decide : 0 < 2 ^ 31) hsmall
  rw [Nat.zero_sub, replicate_zero, append_nil, take_zero] at h'
  exact ⟨v', c', hv', h'⟩

theorem assign [Inhabited T] (h : Rep N v xs c) (hsmall : xs.length < 2 ^ 31) (hn : n < 2 ^ 31)
    (val : T) : ∃ v' c', Prevector.assign N v n val = .ok v' ∧ Rep N v' (replicate n val) c' := by
  obtain ⟨v₁, c₁, hv₁, h₁⟩ := h.clear hsmall
  obtain ⟨v₂, c₂, hv₂, h₂, hc₂⟩ := h₁.ensureCapacity (Nat.two_pow_pos 31)
    (fun hN => hN.trans hn) le_rfl
  obtain ⟨v', hv', h'⟩ := h₂.fill hc₂ hn (Nat.le_add_left n _) val
  refine ⟨v', c₂, ?_, h'⟩
  rw [Prevector.assign, hv₁]
  change (Prevector.ensureCapacity N v₁ n n >>= _) = _
  rw [hv₂]
  exact hv'

theorem assignRange [Inhabited T] (h : Rep N v xs c) (hsmall : xs.length < 2 ^ 31)
    (hvals : vals.length < 2 ^ 31) :
    ∃ v' c', Prevector.assignRange N v vals = .ok v' ∧ Rep N v' vals c' := by
  obtain ⟨v₁, c₁, hv₁, h₁⟩ := h.clear hsmall
  obtain ⟨v₂, c₂, hv₂, h₂, hc₂⟩ := h₁.ensureCapacity (Nat.two_pow_pos 31)
    (fun hN => hN.trans hvals) le_rfl
  obtain ⟨v', hv', h'⟩ := h₂.appendAll vals ((zero_add _).trans_le hc₂)
    ((zero_add _).trans_lt hvals)
  refine ⟨v', c₂, ?_, h'⟩
  rw [Prevector.assignRange, hv₁]
  change (Prevector.ensureCapacity N v₁ _ _ >>= _) = _
  rw [hv₂]
  exact hv'

theorem shrinkToFit (h : Rep N v xs c) (hsmall : xs.length < 2 ^ 31) :
    ∃ v' c', Prevector.shrinkToFit N v = .ok v' ∧ Rep N v' xs c' := by
  rw [Prevector.shrinkToFit, h.size_eq]
  obtain ⟨v', c', hv', h', -⟩ := h.changeCapacity le_rfl hsmall (by omega)
  exact ⟨v', c', hv', h'⟩

theorem le_grown (h : n < 2 ^ 31) : n ≤ wadd n (n >>> 1) := by
  rw [Nat.shiftRight_one, wadd_eq (by omega)]
  exact Nat.le_add_right _ _

theorem makeRoom (h : Rep N v xs c) {p count : Nat} (hp : p ≤ xs.length)
    (hsmall : xs.length + count < 2 ^ 31) :
    ∃ (v' : prevector T) (gap rest : Cells T), Prevector.makeRoom N v p count = .ok v' ∧
      gap.length = count ∧ Shape N v' (xs.length + count)
        (filled (xs.take p) ++ (gap ++ (filled (xs.drop p) ++ rest))) := by
  have hnew : wadd (size N v) count = xs.length + count := by
    rw [h.size_eq, wadd_eq (by omega)]
  obtain ⟨v₁, c₁, hv₁, h₁, hc₁⟩ := h.ensureCapacity (by omega)
    (fun hN => hN.trans hsmall) (le_grown hsmall)
  have hsize₁ := h₁.size_eq
  obtain ⟨rest, hlen, hshape⟩ := h₁
  have hleft : (filled (xs.take p)).length = p := by
    rw [length_filled, length_take]
    omega
  have hmid : (filled (xs.drop p)).length = xs.length - p := by
    rw [length_filled, length_drop]
  have hcells : filled xs ++ rest = filled (xs.take p) ++ (filled (xs.drop p) ++ rest) := by
    rw [← append_assoc, ← filled_append, take_append_drop]
  obtain ⟨gap, hgap, hmove⟩ :=
    move_up (filled (xs.take p)) (filled (xs.drop p)) rest (by omega : count ≤ rest.length)
  rw [← hcells, hleft, hmid] at hmove
  have hlength : (filled (xs.take p) ++ (gap ++ (filled (xs.drop p) ++ rest.drop count))).length =
      xs.length + rest.length := by
    simp only [length_append, hleft, hmid, hgap, length_drop]
    omega
  have hset := hshape.setItems
    (hlength.trans (by rw [length_append, length_filled] : _ = (filled xs ++ rest).length))
  refine ⟨_, gap, rest.drop count, ?_, hgap, hset.more (by omega) hsmall⟩
  rw [Prevector.makeRoom, hnew]
  rw [hv₁]
  change (items N v₁ >>= _) = _
  rw [hshape.items_eq]
  change (inBounds (move _ _ _ _) >>= _) = _
  rw [hsize₁, hmove]
  rfl

theorem constructAll (h : Shape N v n (left ++ (gap ++ right))) (hgap : gap.length = vals.length) :
    ∃ v', Prevector.constructAll N v left.length vals = .ok v' ∧
      Shape N v' n (left ++ (filled vals ++ right)) := by
  induction vals generalizing v left gap with
  | nil =>
    rw [length_nil, length_eq_zero_iff] at hgap
    rw [hgap] at h
    exact ⟨v, rfl, h⟩
  | cons val vals ih =>
    obtain ⟨cell, gap, rfl⟩ := exists_cons_of_length_eq_add_one hgap
    obtain ⟨v₁, hv₁, h₁⟩ := h.construct rfl val
    rw [← singleton_append, ← append_assoc] at h₁
    obtain ⟨v', hv', h'⟩ := ih h₁ (Nat.succ.inj hgap)
    refine ⟨v', ?_, ?_⟩
    · rw [length_append] at hv'
      rw [Prevector.constructAll, hv₁]
      exact hv'
    · rw [append_assoc] at h'
      exact h'

theorem of_shape (h : Shape N v n cells) (rest : Cells T) (hn : xs.length = n)
    (hcells : cells = filled xs ++ rest) : ∃ c', Rep N v xs c' := by
  subst hn hcells
  exact ⟨_, rest, rfl, h⟩

theorem insertRange (h : Rep N v xs c) {p : Nat} (hp : p ≤ xs.length) {vals : List T}
    (hsmall : xs.length + vals.length < 2 ^ 31) :
    ∃ v' c', Prevector.insertRange N v p vals = .ok v' ∧
      Rep N v' (xs.take p ++ (vals ++ xs.drop p)) c' := by
  obtain ⟨v₁, gap, rest, hv₁, hgap, hshape⟩ := h.makeRoom hp hsmall
  obtain ⟨v', hv', hshape'⟩ := constructAll hshape hgap
  have hleft : (filled (xs.take p)).length = p := by
    rw [length_filled, length_take]
    omega
  have hlen : (xs.take p ++ (vals ++ xs.drop p)).length = xs.length + vals.length := by
    rw [length_append, length_append, length_take, length_drop]
    omega
  obtain ⟨c', hrep⟩ := of_shape hshape' rest hlen (by
    simp [filled_append])
  refine ⟨v', c', ?_, hrep⟩
  rw [Prevector.insertRange, hv₁]
  rw [hleft] at hv'
  exact hv'

theorem insert (h : Rep N v xs c) (hp : p ≤ xs.length) (hsmall : xs.length + 1 < 2 ^ 31) (val : T) :
    ∃ v' c', Prevector.insert N v p val = .ok v' ∧
      Rep N v' (xs.take p ++ val :: xs.drop p) c' := by
  have hone : Prevector.insert N v p val = Prevector.insertRange N v p [val] := by
    rw [Prevector.insert, Prevector.insertRange, length_singleton]
    congr 1
    funext v
    rw [Prevector.constructAll]
    cases Prevector.construct N v p val <;> rfl
  rw [hone]
  exact h.insertRange hp (by rwa [length_singleton])

theorem insertCopies (h : Rep N v xs c) {p : Nat} (hp : p ≤ xs.length) {count : Nat}
    (hsmall : xs.length + count < 2 ^ 31) (val : T) :
    ∃ v' c', Prevector.insertCopies N v p count val = .ok v' ∧
      Rep N v' (xs.take p ++ (replicate count val ++ xs.drop p)) c' := by
  have hrange : Prevector.insertCopies N v p count val =
      Prevector.insertRange N v p (replicate count val) := by
    rw [Prevector.insertCopies, Prevector.insertRange, length_replicate]
  rw [hrange]
  exact h.insertRange hp (by rwa [length_replicate])

theorem pushBack (h : Rep N v xs c) (hsmall : xs.length + 1 < 2 ^ 31) (val : T) :
    ∃ v' c', Prevector.pushBack N v val = .ok v' ∧ Rep N v' (xs ++ [val]) c' := by
  have hnew : wadd (size N v) 1 = xs.length + 1 := by
    rw [h.size_eq, wadd_eq (by omega)]
  obtain ⟨v₁, c₁, hv₁, h₁, hc₁⟩ := h.ensureCapacity (by omega)
    (fun hN => hN.trans hsmall) (le_grown hsmall)
  have hsize₁ := h₁.size_eq
  obtain ⟨rest, hlen, hshape⟩ := h₁
  cases rest with
  | nil => exact absurd hlen (ne_of_lt hc₁)
  | cons cell rest =>
    obtain ⟨v₂, hv₂, hshape₂⟩ := hshape.construct rfl val
    have hmore := hshape₂.more (k := 1) (by
      rw [length_append, length_filled, length_cons]
      omega) hsmall
    obtain ⟨c', hrep⟩ := of_shape hmore rest (length_append : (xs ++ [val]).length = _) (by
      rw [filled_append, append_assoc]
      rfl)
    refine ⟨_, c', ?_, hrep⟩
    rw [length_filled] at hv₂
    rw [Prevector.pushBack, hnew, hv₁]
    change (Prevector.construct N v₁ (size N v₁) val >>= _) = _
    rw [hsize₁, hv₂]
    rfl

theorem popBack (h : Rep N v xs c) (hne : xs ≠ []) (hsmall : xs.length < 2 ^ 31) :
    ∃ v', Prevector.popBack N v = .ok v' ∧ Rep N v' xs.dropLast c := by
  have hpos := length_pos_of_ne_nil hne
  obtain ⟨v', hv', h'⟩ := h.erase (Nat.sub_le xs.length 1) le_rfl hsmall
  refine ⟨v', ?_, ?_⟩
  · rw [Prevector.popBack, h.size_eq, wsub_eq hpos (by omega)]
    exact hv'
  · rw [drop_length, append_nil, ← dropLast_eq_take] at h'
    exact h'

theorem mapM_range {f : Nat → Except Fault T}
    (h : ∀ (i : Nat) (hi : i < ys.length), f i = .ok ys[i]) :
    (range ys.length).mapM f = .ok ys := by
  induction ys using reverseRecOn with
  | nil => rfl
  | append_singleton ys y ih =>
    have hlast := h ys.length (by rw [length_append, length_singleton]; omega)
    rw [getElem_append_right le_rfl] at hlast
    have hinit := ih fun i hi => by
      rw [h i (by rw [length_append]; omega), getElem_append_left hi]
    rw [length_append, length_singleton, range_succ, mapM_append, hinit,
      mapM_cons, hlast]
    simp only [Nat.sub_self]
    rfl

theorem contents_eq (h : Rep N v xs c) : contents N v = .ok xs := by
  have hsize := h.size_eq
  obtain ⟨rest, -, hshape⟩ := h
  have hget {i : Nat} (hi : i < xs.length) : get N v i = .ok xs[i] := by
    rw [Prevector.get, hshape.items_eq]
    change inBounds (read _ _) = _
    rw [read_filled xs rest hi, getElem?_eq_getElem hi]
    rfl
  rw [contents, hsize]
  exact mapM_range fun i hi => hget hi

theorem copyConstruct (h : Rep N v xs c) (hsmall : xs.length < 2 ^ 31) :
    ∃ v' c', Prevector.copyConstruct N v = .ok v' ∧ Rep N v' xs c' := by
  obtain ⟨v₁, c₁, hv₁, h₁, hc₁⟩ := (new N).changeCapacity (T := T) (Nat.zero_le xs.length)
    (Nat.two_pow_pos 31) (by omega)
  obtain ⟨v', hv', h'⟩ := h₁.appendAll xs ((Nat.zero_add _).trans_le hc₁)
    ((Nat.zero_add _).trans_lt hsmall)
  refine ⟨v', c₁, ?_, h'⟩
  rw [Prevector.copyConstruct, h.size_eq, hv₁, h.contents_eq]
  exact hv'

theorem copyAssign [Inhabited T] (h : Rep N v xs c) (hsmall : xs.length < 2 ^ 31)
    (hother : Rep N other ys d) (hys : ys.length < 2 ^ 31) :
    ∃ v' c', Prevector.copyAssign N v other = .ok v' ∧ Rep N v' ys c' := by
  obtain ⟨v₁, c₁, hv₁, h₁⟩ := h.clear hsmall
  obtain ⟨v₂, c₂, hv₂, h₂, hc₂⟩ := h₁.changeCapacity (Nat.zero_le ys.length)
    (Nat.two_pow_pos 31) (by omega)
  obtain ⟨v', hv', h'⟩ := h₂.appendAll ys ((Nat.zero_add _).trans_le hc₂)
    ((Nat.zero_add _).trans_lt hys)
  refine ⟨v', c₂, ?_, h'⟩
  rw [Prevector.clear] at hv₁
  rw [Prevector.copyAssign, hv₁]
  change (Prevector.changeCapacity N v₁ _ >>= _) = _
  rw [hother.size_eq, hv₂, hother.contents_eq]
  exact hv'

end Rep

end Utsuite.PrevectorRep
