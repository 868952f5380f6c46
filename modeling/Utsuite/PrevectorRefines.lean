import Utsuite.PrevectorRep

namespace Utsuite.PrevectorRefines

open CellArray Prevector PrevectorRep List Function

variable {ι T : Type} [DecidableEq ι]

inductive Op (ι T : Type)
  | assign (i : ι) (n : Nat) (val : T)
  | assignRange (i : ι) (vals : List T)
  | resize (i : ι) (new_size : Nat)
  | reserve (i : ι) (new_capacity : Nat)
  | shrinkToFit (i : ι)
  | clear (i : ι)
  | insert (i : ι) (p : Nat) (val : T)
  | insertCopies (i : ι) (p count : Nat) (val : T)
  | insertRange (i : ι) (p : Nat) (vals : List T)
  | eraseOne (i : ι) (pos : Nat)
  | erase (i : ι) (first last : Nat)
  | pushBack (i : ι) (val : T)
  | popBack (i : ι)
  | swap (i j : ι)
  | copyConstruct (i j : ι)
  | copyAssign (i j : ι)

def exec [Inhabited T] (N : Nat) (s : ι → prevector T) : Op ι T → Except Fault (ι → prevector T)
  | .assign i n val => return update s i (← assign N (s i) n val)
  | .assignRange i vals => return update s i (← assignRange N (s i) vals)
  | .resize i new_size => return update s i (← resize N (s i) new_size)
  | .reserve i new_capacity => return update s i (← reserve N (s i) new_capacity)
  | .shrinkToFit i => return update s i (← shrinkToFit N (s i))
  | .clear i => return update s i (← clear N (s i))
  | .insert i p val => return update s i (← Prevector.insert N (s i) p val)
  | .insertCopies i p count val => return update s i (← insertCopies N (s i) p count val)
  | .insertRange i p vals => return update s i (← insertRange N (s i) p vals)
  | .eraseOne i pos => return update s i (← erase N (s i) pos (pos + 1))
  | .erase i first last => return update s i (← erase N (s i) first last)
  | .pushBack i val => return update s i (← pushBack N (s i) val)
  | .popBack i => return update s i (← popBack N (s i))
  | .swap i j => return update (update s i (s j)) j (s i)
  | .copyConstruct i j => return update s i (← copyConstruct N (s j))
  | .copyAssign i j =>
    if i = j then return s else return update s i (← copyAssign N (s i) (s j))

def apply [Inhabited T] (s : ι → List T) : Op ι T → ι → List T
  | .assign i n val => update s i (replicate n val)
  | .assignRange i vals => update s i vals
  | .resize i n => update s i ((s i).take n ++ replicate (n - (s i).length) default)
  | .reserve _ _ => s
  | .shrinkToFit _ => s
  | .clear i => update s i []
  | .insert i p val => update s i ((s i).take p ++ val :: (s i).drop p)
  | .insertCopies i p count val =>
    update s i ((s i).take p ++ (replicate count val ++ (s i).drop p))
  | .insertRange i p vals => update s i ((s i).take p ++ (vals ++ (s i).drop p))
  | .eraseOne i pos => update s i ((s i).eraseIdx pos)
  | .erase i first last => update s i ((s i).take first ++ (s i).drop last)
  | .pushBack i val => update s i (s i ++ [val])
  | .popBack i => update s i (s i).dropLast
  | .swap i j => update (update s i (s j)) j (s i)
  | .copyConstruct i j => update s i (s j)
  | .copyAssign i j => update s i (s j)

def Admissible (N : Nat) (s : ι → List T) : Op ι T → Prop
  | .assign _ n _ => n < 2 ^ 31
  | .assignRange _ vals => vals.length < 2 ^ 31
  | .resize _ n => n < 2 ^ 31
  | .reserve _ n => N < n → N < 2 ^ 31
  | .insert i p _ => p ≤ (s i).length ∧ (s i).length + 1 < 2 ^ 31
  | .insertCopies i p count _ => p ≤ (s i).length ∧ (s i).length + count < 2 ^ 31
  | .insertRange i p vals => p ≤ (s i).length ∧ (s i).length + vals.length < 2 ^ 31
  | .eraseOne i pos => pos < (s i).length
  | .erase i first last => first ≤ last ∧ last ≤ (s i).length
  | .pushBack i _ => (s i).length + 1 < 2 ^ 31
  | .popBack i => s i ≠ []
  | .shrinkToFit _ | .clear _ | .swap _ _ | .copyConstruct _ _ | .copyAssign _ _ => True

def run [Inhabited T] (N : Nat) (ops : List (Op ι T)) (s : ι → prevector T) : Except Fault (ι → prevector T) :=
  ops.foldlM (exec N) s

def applyAll [Inhabited T] (ops : List (Op ι T)) (s : ι → List T) : ι → List T := ops.foldl apply s

def AllAdmissible [Inhabited T] (N : Nat) : List (Op ι T) → (ι → List T) → Prop
  | [], _ => True
  | op :: ops, s => Admissible N s op ∧ AllAdmissible N ops (apply s op)

/-- To its callers the prevector is this list. Its members have the values that the source gives
them for it. -/
structure Represents (N : Nat) (v : prevector T) (xs : List T) : Prop where
  size : size N v = xs.length
  contents : contents N v = .ok xs
  inline : v._size ≤ N → ∃ rest, xs.length + rest.length = N ∧
    v = ⟨xs.length, .direct (filled xs ++ rest)⟩
  heap : N < v._size → ∃ c rest, xs.length + rest.length = c ∧
    v = ⟨xs.length + N + 1, .indirect c (filled xs ++ rest)⟩
  capacity : ∃ c, capacity N v = .ok c ∧ xs.length ≤ c

theorem Represents.of_rep (h : Rep N v xs c) :
    Represents N v xs where
  size := h.size_eq
  contents := h.contents_eq
  inline hle := by
    obtain ⟨rest, -, hshape⟩ := h
    cases hshape with
    | direct hlen hn =>
      rw [length_append, length_filled] at hlen
      exact ⟨rest, hlen, rfl⟩
    | indirect hn hsmall hN => exact absurd hle (by dsimp only; omega)
  heap hlt := by
    obtain ⟨rest, -, hshape⟩ := h
    cases hshape with
    | direct hlen hn => exact absurd hlt (not_lt.mpr hn)
    | indirect hn hsmall hN =>
      refine ⟨_, rest, ?_, rfl⟩
      rw [length_append, length_filled]
  capacity := ⟨c, h.capacity_eq, h.length_le⟩

def Refines (N : Nat) (s : ι → prevector T) (xs : ι → List T) : Prop :=
  ∀ i, (∃ c, Rep N (s i) (xs i) c) ∧ (xs i).length < 2 ^ 31

section

variable {N : Nat} {s : ι → prevector T} {xs : ι → List T}

theorem Refines.update (h : Refines N s xs) (i : ι) (hv : Rep N v ys c) (hys : ys.length < 2 ^ 31) :
    Refines N (update s i v) (update xs i ys) := by
  intro j
  by_cases hj : j = i
  · subst hj
    rw [update_self, update_self]
    exact ⟨⟨c, hv⟩, hys⟩
  · rw [update_of_ne hj, update_of_ne hj]
    exact h j

theorem Refines.member (h : Refines N s xs) (i : ι) {m : Except Fault (prevector T)} {ys : List T}
    (hm : ∃ v c, m = .ok v ∧ Rep N v ys c) (hys : ys.length < 2 ^ 31) :
    ∃ s', (do return Function.update s i (← m)) = Except.ok s' ∧
      Refines N s' (Function.update xs i ys) := by
  obtain ⟨v, c, rfl, hv⟩ := hm
  exact ⟨_, rfl, h.update i hv hys⟩

theorem Refines.keep (h : Refines N s xs) (i : ι) {m : Except Fault (prevector T)}
    (hm : ∃ v c, m = .ok v ∧ Rep N v (xs i) c) :
    ∃ s', (do return Function.update s i (← m)) = Except.ok s' ∧ Refines N s' xs := by
  obtain ⟨s', hs', hrefines⟩ := h.member i hm (h i).2
  rw [update_eq_self] at hrefines
  exact ⟨s', hs', hrefines⟩

theorem Refines.step [Inhabited T] (h : Refines N s xs) {op : Op ι T} (hop : Admissible N xs op) :
    ∃ s', exec N s op = .ok s' ∧ Refines N s' (apply xs op) := by
  have hrep (i : ι) : ∃ c, Rep N (s i) (xs i) c := (h i).1
  have hsmall (i : ι) : (xs i).length < 2 ^ 31 := (h i).2
  cases op with
  | assign i n val =>
    obtain ⟨c, hi⟩ := hrep i
    exact h.member i (hi.assign (hsmall i) hop val) (List.length_replicate.trans_lt hop)
  | assignRange i vals =>
    obtain ⟨c, hi⟩ := hrep i
    exact h.member i (hi.assignRange (hsmall i) hop) hop
  | resize i n =>
    obtain ⟨c, hi⟩ := hrep i
    obtain ⟨v, c', hv, hrep', -⟩ := hi.resize hop (hsmall i)
    refine h.member i ⟨v, c', hv, hrep'⟩ ?_
    have hn : n < 2 ^ 31 := hop
    rw [length_append, length_take, length_replicate]
    omega
  | reserve i n =>
    obtain ⟨c, hi⟩ := hrep i
    obtain ⟨v, c', hv, hrep', -⟩ := hi.ensureCapacity (hsmall i) hop le_rfl
    exact h.keep i ⟨v, c', hv, hrep'⟩
  | shrinkToFit i =>
    obtain ⟨c, hi⟩ := hrep i
    exact h.keep i (hi.shrinkToFit (hsmall i))
  | clear i =>
    obtain ⟨c, hi⟩ := hrep i
    exact h.member i (hi.clear (hsmall i)) (Nat.two_pow_pos 31)
  | insert i p val =>
    obtain ⟨c, hi⟩ := hrep i
    refine h.member i (hi.insert hop.1 hop.2 val) ?_
    have hlen := hop.2
    rw [length_append, length_cons, length_take, length_drop]
    omega
  | insertCopies i p count val =>
    obtain ⟨c, hi⟩ := hrep i
    refine h.member i (hi.insertCopies hop.1 hop.2 val) ?_
    have hlen := hop.2
    rw [length_append, length_append, length_take, length_drop,
      length_replicate]
    omega
  | insertRange i p vals =>
    obtain ⟨c, hi⟩ := hrep i
    refine h.member i (hi.insertRange hop.1 hop.2) ?_
    have hlen := hop.2
    rw [length_append, length_append, length_take, length_drop]
    omega
  | eraseOne i pos =>
    obtain ⟨c, hi⟩ := hrep i
    obtain ⟨v, hv, hrep'⟩ := hi.erase (Nat.le_succ pos) hop (hsmall i)
    rw [← eraseIdx_eq_take_drop_succ] at hrep'
    exact h.member i ⟨v, c, hv, hrep'⟩ ((length_eraseIdx_le _ _).trans_lt (hsmall i))
  | erase i first last =>
    obtain ⟨c, hi⟩ := hrep i
    obtain ⟨v, hv, hrep'⟩ := hi.erase hop.1 hop.2 (hsmall i)
    refine h.member i ⟨v, c, hv, hrep'⟩ ?_
    have hlen := hsmall i
    rw [length_append, length_take, length_drop]
    have hlast := hop.1
    omega
  | pushBack i val =>
    obtain ⟨c, hi⟩ := hrep i
    exact h.member i (hi.pushBack hop val) (List.length_append.trans_lt hop)
  | popBack i =>
    obtain ⟨c, hi⟩ := hrep i
    obtain ⟨v, hv, hrep'⟩ := hi.popBack hop (hsmall i)
    refine h.member i ⟨v, c, hv, hrep'⟩ ?_
    exact List.length_dropLast.trans_lt ((Nat.sub_le _ _).trans_lt (hsmall i))
  | swap i j =>
    obtain ⟨c, hi⟩ := hrep i
    obtain ⟨d, hj⟩ := hrep j
    exact ⟨_, rfl, (h.update i hj (hsmall j)).update j hi (hsmall i)⟩
  | copyConstruct i j =>
    obtain ⟨d, hj⟩ := hrep j
    exact h.member i (hj.copyConstruct (hsmall j)) (hsmall j)
  | copyAssign i j =>
    obtain ⟨c, hi⟩ := hrep i
    obtain ⟨d, hj⟩ := hrep j
    rw [exec, apply]
    split_ifs with hij
    · subst hij
      rw [Function.update_eq_self]
      exact ⟨s, rfl, h⟩
    · exact h.member i (hi.copyAssign (hsmall i) hj (hsmall j)) (hsmall j)

theorem Refines.run [Inhabited T] (h : Refines N s xs) (hops : AllAdmissible N ops xs) :
    ∃ s', PrevectorRefines.run N ops s = .ok s' ∧ Refines N s' (applyAll ops xs) := by
  induction ops generalizing s xs with
  | nil => exact ⟨s, rfl, h⟩
  | cons op ops ih =>
    obtain ⟨s₁, hs₁, h₁⟩ := h.step hops.1
    obtain ⟨s', hs', h'⟩ := ih h₁ hops.2
    refine ⟨s', ?_, h'⟩
    rw [PrevectorRefines.run, foldlM_cons, hs₁]
    exact hs'

theorem AllAdmissible.take [Inhabited T] (h : AllAdmissible N ops xs) (k : Nat) :
    AllAdmissible N (ops.take k) xs := by
  induction k generalizing ops xs with
  | zero =>
    rw [take_zero]
    trivial
  | succ k ih =>
    cases ops with
    | nil => trivial
    | cons op ops => exact ⟨h.1, ih h.2⟩

end

/-- After each of the calls every prevector is what a list would be after the same calls. -/
theorem prevector_refines_list [Inhabited T] (N : Nat) (ops : List (Op ι T))
    (h : AllAdmissible N ops fun _ => []) (k : Nat) :
    ∃ s, run N (ops.take k) (fun _ => prevector.new N) = .ok s ∧
      ∀ i, Represents N (s i) (applyAll (ops.take k) (fun _ => []) i) := by
  have hnew : Refines N (fun _ : ι => (prevector.new N : prevector T)) fun _ => [] :=
    fun _ => ⟨⟨N, Rep.new N⟩, Nat.two_pow_pos 31⟩
  obtain ⟨s, hs, hrefines⟩ := hnew.run (h.take k)
  refine ⟨s, hs, fun i => ?_⟩
  obtain ⟨⟨c, hrep⟩, -⟩ := hrefines i
  exact .of_rep hrep

def someCalls : List (Op Bool Nat) :=
  [.pushBack true 1, .pushBack true 2, .insertRange true 1 [3, 4], .copyConstruct false true,
    .erase true 1 3, .shrinkToFit true, .swap true false, .popBack true, .reserve false 7,
    .copyAssign false true]

theorem prevector_refines_list_someCalls :
    ∃ s, run 2 (someCalls.take 9) (fun _ => prevector.new 2) = .ok s ∧
      Represents 2 (s true) [1, 3, 4] ∧ Represents 2 (s false) [1, 2] := by
  have hcalls : AllAdmissible 2 someCalls fun _ => [] := by
    simp only [someCalls, AllAdmissible, Admissible]
    decide
  obtain ⟨s, hs, hrep⟩ := prevector_refines_list 2 someCalls hcalls 9
  exact ⟨s, hs, hrep true, hrep false⟩

end Utsuite.PrevectorRefines
