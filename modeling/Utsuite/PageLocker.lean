import Mathlib.Data.List.AList
import Mathlib.Data.Nat.Bitwise
import Utsuite.RefCount
import Utsuite.Transitions

namespace Utsuite.PageLocker

open Transitions RefCount List Function

section

structure PageSize where
  bits : Nat
  bits_lt : bits < 64

def PageSize.page_size (P : PageSize) : Nat := 2 ^ P.bits

def PageSize.page_mask (P : PageSize) : Nat := 2 ^ 64 - 1 - (P.page_size - 1)

structure Range where
  p : Nat
  size : Nat
  deriving DecidableEq

/-- The manager with the calls it made to the locker. In them, `true` is `Lock` and `false` is
`Unlock`. -/
structure Manager where
  histogram : AList fun _ : Nat => Int32
  calls : List (Nat × Bool)

inductive Fault
  | endless
  | assertion

variable (P : PageSize)

/-- The pages of the loop over a range. A loop that makes more rounds than there are pages does not
end. -/
def pages (end_page : Nat) : Nat → Nat → Except Fault (List Nat)
  | 0, _ => .error .endless
  | rounds + 1, page =>
    if page ≤ end_page then do
      let rest ← pages end_page rounds ((page + P.page_size) % 2 ^ 64)
      pure (page :: rest)
    else pure []

def rangePages (r : Range) : Except Fault (List Nat) :=
  if r.size = 0 then pure []
  else
    let start_page := r.p &&& P.page_mask
    let end_page := (r.p + r.size - 1) % 2 ^ 64 &&& P.page_mask
    pages P end_page (end_page / P.page_size + 2) start_page

def lockPage (m : Manager) (page : Nat) : Manager :=
  match m.histogram.lookup page with
  | none => ⟨m.histogram.insert page 1, m.calls ++ [(page, true)]⟩
  | some n => ⟨m.histogram.insert page (n + 1), m.calls⟩

def unlockPage (m : Manager) (page : Nat) : Except Fault Manager :=
  match m.histogram.lookup page with
  | none => .error .assertion
  | some n =>
    let n := n - 1
    if n = 0 then pure ⟨m.histogram.erase page, m.calls ++ [(page, false)]⟩
    else pure ⟨m.histogram.insert page n, m.calls⟩

def lockRange (r : Range) (m : Manager) : Except Fault Manager := do
  let pages ← rangePages P r
  pure (pages.foldl lockPage m)

def unlockRange (r : Range) (m : Manager) : Except Fault Manager := do
  let pages ← rangePages P r
  pages.foldlM unlockPage m

end

section

inductive Op
  | lock (r : Range)
  | unlock (r : Range)

structure World where
  m : Manager
  active : List Range

variable (P : PageSize)

def call : Op → Manager → Except Fault Manager
  | .lock r => lockRange P r
  | .unlock r => unlockRange P r

def activeAfter (active : List Range) : Op → List Range
  | .lock r => r :: active
  | .unlock r => active.erase r

def system : System World Op where
  start := {⟨⟨∅, []⟩, []⟩}
  next w op w' := call P op w.m = .ok w'.m ∧ w'.active = activeAfter w.active op

def Touches (r : Range) (page : Nat) : Prop :=
  ∃ a, r.p ≤ a ∧ a < r.p + r.size ∧ page = a / P.page_size * P.page_size

def InSpace (r : Range) : Prop := r.size ≠ 0 → r.p + r.size + P.page_size ≤ 2 ^ 64

def Matched (w : World) : Op → Prop
  | .lock r => InSpace P r
  | .unlock r => r ∈ w.active

end

section

variable (P : PageSize)

theorem page_size_pos : 0 < P.page_size := Nat.two_pow_pos _

theorem page_size_dvd : 2 ^ 64 = P.page_size * 2 ^ (64 - P.bits) := by
  unfold PageSize.page_size
  rw [← pow_add, Nat.add_sub_cancel' P.bits_lt.le]

theorem and_page_mask (hx : x < 2 ^ 64) : x &&& P.page_mask = x / P.page_size * P.page_size := by
  have hmask : P.page_mask = (2 ^ (64 - P.bits) - 1) <<< P.bits := by
    have hdvd := page_size_dvd P
    have hpos := page_size_pos P
    rw [Nat.shiftLeft_eq, Nat.sub_mul, one_mul, mul_comm]
    unfold PageSize.page_mask
    unfold PageSize.page_size at *
    omega
  have hpage : x / P.page_size * P.page_size = (x >>> P.bits) <<< P.bits := by
    rw [Nat.shiftLeft_eq, Nat.shiftRight_eq_div_pow]
    rfl
  rw [hmask, hpage]
  apply Nat.eq_of_testBit_eq
  intro i
  rw [Nat.testBit_and, Nat.testBit_shiftLeft, Nat.testBit_shiftLeft, Nat.testBit_two_pow_sub_one,
    Nat.testBit_shiftRight]
  by_cases hi : P.bits ≤ i
  · rw [Nat.add_sub_cancel' hi]
    by_cases hlt : i < 64
    · simp [hi, Nat.sub_lt_sub_right hi hlt]
    · have hbig : x.testBit i = false :=
        Nat.testBit_lt_two_pow (hx.trans_le (Nat.pow_le_pow_right (by decide) (by omega)))
      simp [hbig]
  · simp [hi]

theorem pages_eq (start last rounds : Nat) (hstart : start ≤ last + 1)
    (hrounds : last + 1 - start < rounds) (hspace : (last + 1) * P.page_size < 2 ^ 64) :
    pages P (last * P.page_size) rounds (start * P.page_size) =
      .ok ((range' start (last + 1 - start)).map (· * P.page_size)) := by
  induction rounds generalizing start with
  | zero => omega
  | succ rounds ih =>
    rw [pages]
    by_cases hle : start ≤ last
    · have hnext : (start * P.page_size + P.page_size) % 2 ^ 64 = (start + 1) * P.page_size := by
        rw [← Nat.succ_mul]
        exact Nat.mod_eq_of_lt
          ((Nat.mul_le_mul_right _ (Nat.succ_le_succ hle)).trans_lt hspace)
      have hcount : last + 1 - start = (last + 1 - (start + 1)) + 1 := by omega
      rw [if_pos (Nat.mul_le_mul_right _ hle), hnext, ih (start + 1) (by omega) (by omega), hcount,
        range'_succ]
      rfl
    · have hcount : last + 1 - start = 0 := by omega
      rw [if_neg (fun h => hle (Nat.le_of_mul_le_mul_right h (page_size_pos P))), hcount]
      rfl

def pagesOf (r : Range) : List Nat :=
  if r.size = 0 then []
  else (range' (r.p / P.page_size)
    ((r.p + r.size - 1) / P.page_size + 1 - r.p / P.page_size)).map (· * P.page_size)

theorem rangePages_eq (h : InSpace P r) : rangePages P r = .ok (pagesOf P r) := by
  unfold rangePages pagesOf
  by_cases hsize : r.size = 0
  · rw [if_pos hsize, if_pos hsize]
    rfl
  have hspace := h hsize
  have hpos := page_size_pos P
  have hlast : ((r.p + r.size - 1) / P.page_size + 1) * P.page_size < 2 ^ 64 := by
    have := Nat.div_mul_le_self (r.p + r.size - 1) P.page_size
    rw [Nat.succ_mul]
    omega
  have horder : r.p / P.page_size ≤ (r.p + r.size - 1) / P.page_size :=
    Nat.div_le_div_right (by omega)
  rw [if_neg hsize, if_neg hsize, Nat.mod_eq_of_lt (by omega : r.p + r.size - 1 < 2 ^ 64),
    and_page_mask P (by omega), and_page_mask P (by omega)]
  dsimp only
  rw [Nat.mul_div_cancel _ hpos]
  exact pages_eq P _ _ _ (Nat.le_succ_of_le horder) (Nat.lt_succ_of_le (Nat.sub_le _ _)) hlast

theorem pagesOf_nodup (r : Range) : (pagesOf P r).Nodup := by
  unfold pagesOf
  split
  · exact nodup_nil
  · exact List.Nodup.map (fun a b h => Nat.eq_of_mul_eq_mul_right (page_size_pos P) h)
      nodup_range'

theorem mem_pagesOf (r : Range) (page : Nat) : page ∈ pagesOf P r ↔ Touches P r page := by
  have hpos := page_size_pos P
  unfold pagesOf Touches
  split
  · rename_i hsize
    simp only [not_mem_nil, false_iff, hsize]
    rintro ⟨a, hle, hlt, -⟩
    omega
  · rename_i hsize
    have horder : r.p / P.page_size ≤ (r.p + r.size - 1) / P.page_size :=
      Nat.div_le_div_right (by omega)
    simp only [mem_map, mem_range'_1]
    constructor
    · rintro ⟨i, ⟨hge, hlt⟩, rfl⟩
      -- The first byte of the page, or of the range if that is on it.
      refine ⟨max (i * P.page_size) r.p, Nat.le_max_right _ _, ?_, ?_⟩
      · have hi : i * P.page_size ≤ r.p + r.size - 1 :=
          (Nat.le_div_iff_mul_le hpos).mp (by omega)
        omega
      · congr 1
        rcases le_total (i * P.page_size) r.p with hle | hle
        · rw [max_eq_right hle]
          exact le_antisymm ((Nat.le_div_iff_mul_le hpos).mpr hle) hge
        · rw [max_eq_left hle, Nat.mul_div_cancel _ hpos]
    · rintro ⟨a, hle, hlt, rfl⟩
      have hlow : r.p / P.page_size ≤ a / P.page_size := Nat.div_le_div_right hle
      have hhigh : a / P.page_size ≤ (r.p + r.size - 1) / P.page_size :=
        Nat.div_le_div_right (by omega)
      exact ⟨a / P.page_size, ⟨hlow, by omega⟩, rfl⟩

instance (r : Range) (page : Nat) : Decidable (Touches P r page) :=
  decidable_of_iff _ (mem_pagesOf P r page)

end

def entry (count : Nat) : Option Int32 := if count = 0 then none else some (Int32.ofNat count)

/-- The locker was called exactly when a count left zero or returned to it. -/
def Represents (m : Manager) (c : Counter Nat) : Prop :=
  (∀ page, m.histogram.lookup page = entry (c.count page)) ∧ m.calls = c.log

theorem lockPage_represents (h : Represents m c) (page : Nat) :
    Represents (lockPage m page) (acquire c page) := by
  obtain ⟨hcount, hcalls⟩ := h
  have hself : (acquire c page).count page = c.count page + 1 := update_self ..
  have hinsert : ∀ n, some n = entry (c.count page + 1) → ∀ other,
      (m.histogram.insert page n).lookup other = entry ((acquire c page).count other) := by
    intro n hn other
    by_cases hother : other = page
    · subst hother
      rw [AList.lookup_insert, hn, hself]
    · rw [AList.lookup_insert_ne hother, hcount]
      exact congrArg entry (update_of_ne hother ..).symm
  unfold lockPage
  rw [hcount]
  by_cases hzero : c.count page = 0
  · rw [hzero]
    refine ⟨hinsert 1 (by rw [hzero]; rfl), ?_⟩
    rw [acquire, if_pos hzero, hcalls]
    rfl
  · rw [entry, if_neg hzero]
    refine ⟨hinsert _ ?_, ?_⟩
    · rw [entry, if_neg (Nat.succ_ne_zero _), Int32.ofNat_add]
      rfl
    · rw [acquire, if_neg hzero, hcalls]

theorem ofNat_eq_zero (h : n < 2 ^ 32) : Int32.ofNat n = 0 ↔ n = 0 := by
  constructor
  · intro hzero
    have hbits : n % 2 ^ 32 = 0 := by
      have := congrArg (fun x => x.toBitVec.toNat) hzero
      simpa using this
    rwa [Nat.mod_eq_of_lt h] at hbits
  · rintro rfl
    rfl

theorem unlockPage_represents (h : Represents m c) (hpos : 0 < c.count page)
    (hlt : c.count page < 2 ^ 32) :
    ∃ m', unlockPage m page = .ok m' ∧ Represents m' (release c page) := by
  obtain ⟨hcount, hcalls⟩ := h
  have hother : ∀ {other}, other ≠ page → (release c page).count other = c.count other :=
    fun hne => update_of_ne hne ..
  have hself : (release c page).count page = c.count page - 1 := update_self ..
  obtain ⟨n, hn⟩ := Nat.exists_eq_succ_of_ne_zero (Nat.pos_iff_ne_zero.mp hpos)
  have hentry : entry (c.count page) = some (Int32.ofNat (n + 1)) := by
    rw [hn]
    exact if_neg (Nat.succ_ne_zero n)
  have hsub : Int32.ofNat (n + 1) - 1 = Int32.ofNat n := by
    rw [Int32.ofNat_add]
    exact Int32.add_sub_cancel _ _
  unfold unlockPage
  rw [hcount, hentry]
  dsimp only
  rw [hsub]
  by_cases hzero : n = 0
  · rw [if_pos ((ofNat_eq_zero (by omega)).mpr hzero)]
    refine ⟨_, rfl, fun other => ?_, ?_⟩
    · by_cases hne : other = page
      · subst hne
        rw [AList.lookup_erase, hself, hn, hzero]
        rfl
      · rw [AList.lookup_erase_ne hne, hcount, hother hne]
    · rw [release, if_pos (by omega), hcalls]
  · rw [if_neg (fun h => hzero ((ofNat_eq_zero (by omega)).mp h))]
    refine ⟨_, rfl, fun other => ?_, ?_⟩
    · by_cases hne : other = page
      · subst hne
        rw [AList.lookup_insert, hself, hn]
        exact (if_neg hzero).symm
      · rw [AList.lookup_insert_ne hne, hcount, hother hne]
    · rw [release, if_neg (by omega), hcalls]

theorem lockPages_represents (pages : List Nat) (h : Represents m c) :
    Represents (pages.foldl lockPage m) (pages.foldl acquire c) := by
  induction pages generalizing m c with
  | nil => exact h
  | cons page pages ih => exact ih (lockPage_represents h page)

theorem acquireAll_tracks (pages : List Nat) (h : Tracks c) : Tracks (pages.foldl acquire c) := by
  induction pages generalizing c with
  | nil => exact h
  | cons page pages ih => exact ih (h.acquire page)

theorem unlockPages_represents {pages : List Nat} (hnodup : pages.Nodup) {m : Manager}
    {c : Counter Nat} (h : Represents m c) (htracks : Tracks c)
    (hheld : ∀ page ∈ pages, 0 < c.count page ∧ c.count page < 2 ^ 32) :
    ∃ m', pages.foldlM unlockPage m = .ok m' ∧ Represents m' (pages.foldl release c) ∧
      Tracks (pages.foldl release c) := by
  induction pages generalizing m c with
  | nil => exact ⟨m, rfl, h, htracks⟩
  | cons page pages ih =>
    obtain ⟨hpage, hpages⟩ := nodup_cons.mp hnodup
    obtain ⟨hpos, hlt⟩ := hheld page mem_cons_self
    obtain ⟨m₁, hm₁, hrep⟩ := unlockPage_represents h hpos hlt
    have hheld₁ : ∀ other ∈ pages, 0 < (release c page).count other ∧
        (release c page).count other < 2 ^ 32 := by
      intro other hother
      have hne : other ≠ page := fun heq => hpage (heq ▸ hother)
      have hcount : (release c page).count other = c.count other := update_of_ne hne ..
      rw [hcount]
      exact hheld other (mem_cons_of_mem _ hother)
    obtain ⟨m', hm', hrest⟩ := ih hpages hrep (htracks.release hpos) hheld₁
    refine ⟨m', ?_, hrest⟩
    rw [foldlM_cons, hm₁]
    exact hm'

section

variable (P : PageSize)

def holders (active : List Range) (page : Nat) : Nat :=
  active.countP fun r => Touches P r page

def Few (active : List Range) : Prop := ∀ page, holders P active page < 2 ^ 31

def Counted (w : World) : Prop :=
  (∀ r ∈ w.active, InSpace P r) ∧
    ∃ c, Represents w.m c ∧ Tracks c ∧ ∀ page, c.count page = holders P w.active page

theorem start_counted : Counted P ⟨⟨∅, []⟩, []⟩ := by
  refine ⟨fun r hr => (not_mem_nil hr).elim, RefCount.empty, ⟨fun page => ?_, rfl⟩,
    empty_tracks, fun page => rfl⟩
  rw [AList.lookup_empty]
  rfl

theorem holders_cons (active : List Range) (r : Range) (page : Nat) :
    holders P (r :: active) page =
      holders P active page + if page ∈ pagesOf P r then 1 else 0 := by
  unfold holders
  rw [countP_cons]
  simp [mem_pagesOf]

theorem holders_erase (h : r ∈ active) (page : Nat) :
    holders P (active.erase r) page =
      holders P active page - if page ∈ pagesOf P r then 1 else 0 := by
  have hcons : holders P active page = holders P (r :: active.erase r) page :=
    (perm_cons_erase h).countP_eq _
  rw [hcons, holders_cons]
  omega

theorem lock_counted (h : Counted P w) (hr : InSpace P r) :
    ∃ m, call P (.lock r) w.m = .ok m ∧ Counted P ⟨m, r :: w.active⟩ := by
  obtain ⟨hspace, c, hrep, htracks, hcount⟩ := h
  refine ⟨(pagesOf P r).foldl lockPage w.m, ?_, ?_, (pagesOf P r).foldl acquire c,
    lockPages_represents _ hrep, acquireAll_tracks _ htracks, fun page => ?_⟩
  · rw [call, lockRange, rangePages_eq P hr]
    rfl
  · intro r' hr'
    rcases mem_cons.mp hr' with rfl | hr'
    · exact hr
    · exact hspace r' hr'
  · rw [count_foldl (· + 1) (fun _ _ => rfl) c (pagesOf_nodup P r), hcount, holders_cons]
    split <;> rfl

theorem unlock_counted {w : World} (h : Counted P w) {r : Range} (hr : r ∈ w.active)
    (hfew : Few P (w.active.erase r)) :
    ∃ m, call P (.unlock r) w.m = .ok m ∧ Counted P ⟨m, w.active.erase r⟩ := by
  obtain ⟨hspace, c, hrep, htracks, hcount⟩ := h
  have hheld : ∀ page ∈ pagesOf P r, 0 < c.count page ∧ c.count page < 2 ^ 32 := by
    intro page hpage
    have hpos : 0 < holders P w.active page :=
      countP_pos_iff.mpr ⟨r, hr, decide_eq_true ((mem_pagesOf P r page).mp hpage)⟩
    have hlt := hfew page
    rw [holders_erase P hr, if_pos hpage] at hlt
    rw [hcount]
    omega
  obtain ⟨m, hm, hrep', htracks'⟩ :=
    unlockPages_represents (pagesOf_nodup P r) hrep htracks hheld
  refine ⟨m, ?_, fun r' hr' => hspace r' (mem_of_mem_erase hr'), _, hrep', htracks',
    fun page => ?_⟩
  · rw [call, unlockRange, rangePages_eq P (hspace r hr)]
    exact hm
  · rw [count_foldl (· - 1) (fun _ _ => rfl) c (pagesOf_nodup P r), hcount, holders_erase P hr]
    split <;> rfl

theorem call_counted (h : Counted P w) (hop : Matched P w op)
    (hfew : Few P (activeAfter w.active op)) :
    ∃ m, call P op w.m = .ok m ∧ Counted P ⟨m, activeAfter w.active op⟩ := by
  cases op with
  | lock r => exact lock_counted P h hop
  | unlock r => exact unlock_counted P h hop hfew

def Allowed (w : World) (op : Op) : Prop := Matched P w op ∧ Few P (activeAfter w.active op)

theorem reach_counted (h : Reach ((system P).under (Allowed P)) w) : Counted P w := by
  refine Reach.invariant ?_ ?_ h
  · rintro _ rfl
    exact start_counted P
  · rintro w op ⟨m', active'⟩ hw ⟨⟨hop, hfew⟩, hcall, hactive⟩
    obtain ⟨m, hm, hcounted⟩ := call_counted P hw hop hfew
    obtain rfl : m = m' := Except.ok.inj (hm.symm.trans hcall)
    obtain rfl : active' = activeAfter w.active op := hactive
    exact hcounted

/-- As long as no page carries `2 ^ 31` ranges, a page is locked exactly while an active range
touches it. Calls to the locker alternate, and every matched call returns. -/
theorem page_locks_stack (w : World) (h : Reach ((system P).under (Allowed P)) w) :
    (∀ page, isOn w.m.calls page = true ↔ ∃ r ∈ w.active, Touches P r page) ∧
      (∀ page, Alternates (events w.m.calls page)) ∧
      ∀ op, Allowed P w op → ∃ m, call P op w.m = .ok m := by
  have hcounted := reach_counted P h
  obtain ⟨-, c, ⟨-, hcalls⟩, htracks, hcount⟩ := id hcounted
  refine ⟨fun page => ?_, fun page => ?_, fun op hop => ?_⟩
  · rw [hcalls, htracks.isOn_iff, hcount]
    exact countP_pos_iff.trans (by simp)
  · rw [hcalls]
    exact (htracks page).1
  · obtain ⟨m, hm, -⟩ := call_counted P hcounted hop.1 hop.2
    exact ⟨m, hm⟩

theorem few_of_length (h : active.length < 2 ^ 31) : Few P active :=
  fun _ => countP_le_length.trans_lt h

def commonSize : PageSize := ⟨12, by decide⟩

/-- Two ranges share the page 4096. The first one is unlocked again. -/
theorem page_locks_stack_overlap :
    ∃ w, Reach ((system commonSize).under (Allowed commonSize)) w ∧
      w.m.calls = [(0, true), (4096, true), (8192, true), (0, false)] ∧
      w.active = [⟨4096, 4100⟩] ∧
      (∀ page, isOn w.m.calls page = true ↔ ∃ r ∈ w.active, Touches commonSize r page) ∧
      (∀ page, Alternates (events w.m.calls page)) ∧
      ∀ op, Allowed commonSize w op → ∃ m, call commonSize op w.m = .ok m := by
  have hfirst : Reach ((system commonSize).under (Allowed commonSize)) ⟨_, _⟩ :=
    .step (i := .lock ⟨4090, 10⟩) (.start rfl)
      ⟨⟨fun _ => by decide, few_of_length commonSize (by decide)⟩, rfl, rfl⟩
  have hboth : Reach ((system commonSize).under (Allowed commonSize)) ⟨_, _⟩ :=
    hfirst.step (i := .lock ⟨4096, 4100⟩)
      ⟨⟨fun _ => by decide, few_of_length commonSize (by decide)⟩, rfl, rfl⟩
  have hreach : Reach ((system commonSize).under (Allowed commonSize)) ⟨_, _⟩ :=
    hboth.step (i := .unlock ⟨4090, 10⟩)
      ⟨⟨mem_cons_of_mem _ mem_cons_self, few_of_length commonSize (by decide)⟩, rfl, rfl⟩
  exact ⟨_, hreach, rfl, rfl, page_locks_stack commonSize _ hreach⟩

def firstByte : Range := ⟨0, 1⟩

theorem firstByte_locks (n : Nat) :
    ∃ m, Reach ((system commonSize).under (Matched commonSize))
        ⟨m, replicate (n + 1) firstByte⟩ ∧
      m.histogram.lookup 0 = some (Int32.ofNat (n + 1)) ∧ m.calls = [(0, true)] := by
  have hspace : InSpace commonSize firstByte := fun _ => by decide
  have hlock : ∀ m, call commonSize (.lock firstByte) m = .ok (lockPage m 0) := fun m => rfl
  induction n with
  | zero =>
    exact ⟨_, .step (i := .lock firstByte) (.start rfl) ⟨hspace, hlock _, rfl⟩, rfl, rfl⟩
  | succ n ih =>
    obtain ⟨m, hreach, hlookup, hcalls⟩ := ih
    have hpage : lockPage m 0 = ⟨m.histogram.insert 0 (Int32.ofNat (n + 1) + 1), m.calls⟩ := by
      rw [lockPage, hlookup]
    refine ⟨lockPage m 0, .step (i := .lock firstByte) hreach ⟨hspace, hlock m, ?_⟩, ?_, ?_⟩
    · rw [replicate_succ]
      rfl
    · rw [hpage, AList.lookup_insert, Int32.ofNat_add (n + 1) 1]
      rfl
    · rw [hpage, hcalls]

/-- After `2 ^ 32 + 1` locks and one unlock, the counter has wrapped and the page is unlocked under
the locks left. -/
theorem page_unlocked_under_locks :
    ∃ w, Reach ((system commonSize).under (Matched commonSize)) w ∧
      isOn w.m.calls 0 = false ∧ firstByte ∈ w.active ∧ Touches commonSize firstByte 0 := by
  obtain ⟨m, hreach, hlookup, hcalls⟩ := firstByte_locks (2 ^ 32)
  have hone : Int32.ofNat (2 ^ 32 + 1) - 1 = 0 := by decide
  have hunlock : call commonSize (.unlock firstByte) m =
      .ok ⟨m.histogram.erase 0, m.calls ++ [(0, false)]⟩ := by
    have hpage : unlockPage m 0 = .ok ⟨m.histogram.erase 0, m.calls ++ [(0, false)]⟩ := by
      rw [unlockPage, hlookup]
      dsimp only
      rw [hone, if_pos rfl]
      rfl
    have hpages : rangePages commonSize firstByte = .ok [0] := rfl
    rw [call, unlockRange, hpages]
    exact (congrArg (· >>= pure) hpage).trans rfl
  refine ⟨⟨_, replicate (2 ^ 32) firstByte⟩,
    .step (i := .unlock firstByte) hreach ⟨?_, hunlock, ?_⟩, ?_, ?_, ?_⟩
  · exact List.mem_replicate.mpr ⟨Nat.succ_ne_zero _, rfl⟩
  · rw [activeAfter, replicate_succ, erase_cons_head]
  · rw [hcalls]
    rfl
  · exact mem_replicate.mpr ⟨ne_of_gt (Nat.two_pow_pos 32), rfl⟩
  · exact ⟨0, by decide, by decide, by decide⟩

end

end Utsuite.PageLocker
